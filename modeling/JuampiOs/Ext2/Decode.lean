import JuampiOs.Ext2.Alloc

/-!
# Reading a file system off a volume

Every volume whose superblock and group descriptors are in order stands for a view, the one its
metadata blocks decode to (`abs_viewOf`). That the parameters of a superblock give a layout is
decided by going through the roles there are (`Layout.ofCheck`).
-/

namespace JuampiOs.Ext2

open List

variable {fs : Fs} {P : Places} {sys : List Nat}

/-! ## Layouts -/

/-- The roles of the metadata blocks, one by one. -/
def Fs.roles (fs : Fs) : List Role :=
  let blocks (bytes : Nat) := range ((bytes + fs.blockSize - 1) / fs.blockSize)
  (blocks (fs.groups * GroupDesc.bytes)).map Role.gdt ++
    (range fs.groups).flatMap fun g =>
      .blockBitmap g :: .inodeBitmap g ::
        (blocks (fs.inodesPerGroup * fs.inodeSize)).map (.inodeTable g)

/-- The blocks whose place is fixed: the superblock's, and one for each role. -/
def Places.fixed (fs : Fs) (P : Places) : List Nat :=
  sbBlk fs.blockSize :: fs.roles.map (P.loc fs)

/-- Whether the parameters and places give a layout in which the blocks `sys` belong to the file
system itself. -/
def layoutOk (fs : Fs) (P : Places) (sys : List Nat) : Bool :=
  decide ((∃ k, k < 6 ∧ fs.blockSize = 1024 * 2 ^ k) ∧
    Inode.bytes ≤ fs.inodeSize ∧ fs.blockSize % fs.inodeSize = 0 ∧
    (0 < fs.blocksPerGroup ∧ fs.blocksPerGroup ≤ 8 * fs.blockSize ∧ fs.blocksPerGroup < 2 ^ 16) ∧
    (0 < fs.inodesPerGroup ∧ fs.inodesPerGroup ≤ 8 * fs.blockSize ∧ fs.inodesPerGroup < 2 ^ 16) ∧
    fs.firstDataBlock = sbBlk fs.blockSize ∧
    (fs.blocksCount ≤ fs.firstDataBlock + fs.groups * fs.blocksPerGroup ∧
      fs.blocksCount < 2 ^ 32) ∧
    fs.groups * fs.inodesPerGroup < 2 ^ 32 ∧ fs.groups * GroupDesc.bytes < 2 ^ 32 ∧
    (P.fixed fs).Nodup ∧ (∀ b ∈ P.fixed fs, b ∈ sys) ∧ ∀ b ∈ sys, b < fs.blocksCount)

theorem mem_roles (h : layoutOk fs P sys = true) {r : Role} (hr : r.Valid fs) : r ∈ fs.roles := by
  obtain ⟨⟨k, _, hk⟩, _⟩ := of_decide_eq_true h
  have hpos : 0 < fs.blockSize := hk ▸ Nat.mul_pos (by decide) (Nat.two_pow_pos k)
  have hlt : ∀ k bytes, k * fs.blockSize < bytes → k < (bytes + fs.blockSize - 1) / fs.blockSize := by
    intro k bytes h
    rw [Nat.lt_iff_add_one_le, Nat.le_div_iff_mul_le hpos, Nat.add_mul]
    omega
  unfold Fs.roles
  simp only [mem_append, mem_map, mem_flatMap, mem_range, mem_cons]
  cases r with
  | gdt k => exact .inl ⟨k, hlt _ _ hr, rfl⟩
  | blockBitmap g => exact .inr ⟨g, hr, .inl rfl⟩
  | inodeBitmap g => exact .inr ⟨g, hr, .inr (.inl rfl)⟩
  | inodeTable g k => exact .inr ⟨g, hr.1, .inr (.inr ⟨k, hlt _ _ hr.2, rfl⟩)⟩

/-- The layout of parameters that pass the check. -/
@[simps toPlaces sys]
def Layout.ofCheck (h : layoutOk fs P sys = true) : Layout fs where
  toPlaces := P
  sys := fun b => b ∈ sys
  blockSize := by
    obtain ⟨⟨k, _, hk⟩, _⟩ := of_decide_eq_true h
    exact ⟨k, hk⟩
  blockSize_le := by
    obtain ⟨⟨k, hk, hbs⟩, _⟩ := of_decide_eq_true h
    have : 2 ^ k ≤ 2 ^ 5 := Nat.pow_le_pow_right (by decide) (by omega)
    omega
  inodeSize_ge := (of_decide_eq_true h).2.1
  inodeSize_dvd := Nat.dvd_of_mod_eq_zero (of_decide_eq_true h).2.2.1
  blocksPerGroup_pos := (of_decide_eq_true h).2.2.2.1.1
  blocksPerGroup_le := (of_decide_eq_true h).2.2.2.1.2.1
  blocksPerGroup_lt := (of_decide_eq_true h).2.2.2.1.2.2
  inodesPerGroup_pos := (of_decide_eq_true h).2.2.2.2.1.1
  inodesPerGroup_le := (of_decide_eq_true h).2.2.2.2.1.2.1
  inodesPerGroup_lt := (of_decide_eq_true h).2.2.2.2.1.2.2
  firstDataBlock := (of_decide_eq_true h).2.2.2.2.2.1
  blocksCount_le := (of_decide_eq_true h).2.2.2.2.2.2.1.1
  blocksCount_lt := (of_decide_eq_true h).2.2.2.2.2.2.1.2
  inodesCount_lt := (of_decide_eq_true h).2.2.2.2.2.2.2.1
  gdtBytes_lt := (of_decide_eq_true h).2.2.2.2.2.2.2.2.1
  loc_inj := by
    intro r r' hr hr' heq
    obtain ⟨_, _, _, _, _, _, _, _, _, hnd, _⟩ := of_decide_eq_true h
    exact inj_on_of_nodup_map hnd.of_cons (mem_roles h hr) (mem_roles h hr') heq
  loc_ne_sb := by
    intro r hr heq
    obtain ⟨_, _, _, _, _, _, _, _, _, hnd, _⟩ := of_decide_eq_true h
    exact hnd.notMem (mem_map.mpr ⟨r, mem_roles h hr, heq⟩)
  sys_loc := by
    intro r hr
    obtain ⟨_, _, _, _, _, _, _, _, _, _, hsys, _⟩ := of_decide_eq_true h
    exact hsys _ (mem_cons_of_mem _ (mem_map_of_mem (mem_roles h hr)))
  sys_sb := by
    obtain ⟨_, _, _, _, _, _, _, _, _, _, hsys, _⟩ := of_decide_eq_true h
    exact hsys _ mem_cons_self
  sys_lt := by
    obtain ⟨_, _, _, _, _, _, _, _, _, _, _, hlt⟩ := of_decide_eq_true h
    exact hlt

/-! ## Views -/

/-- What the metadata blocks of a volume decode to. -/
def viewOf (fs : Fs) (P : Places) (s : Vol) : View where
  gd g := GroupDesc.decode (s.blocks (P.loc fs (.gdt (g * GroupDesc.bytes / fs.blockSize))))
    (g * GroupDesc.bytes % fs.blockSize)
  inode x :=
    let i := (inoPlace fs x).2
    Inode.decode (s.blocks (P.loc fs (.inodeTable (inoPlace fs x).1 (i * fs.inodeSize / fs.blockSize))))
      (i * fs.inodeSize % fs.blockSize)
  bused b := (s.blocks (P.loc fs (.blockBitmap (fs.groupOf b)))).bit
    ((b - fs.firstDataBlock) % fs.blocksPerGroup)
  iused x := (s.blocks (P.loc fs (.inodeBitmap (inoPlace fs x).1))).bit (inoPlace fs x).2
  data := s.blocks
  counts := s.counts

/-- The group descriptors point where the layout says. -/
def PlacesOk (fs : Fs) (P : Places) (v : View) : Prop :=
  ∀ g, g < fs.groups → (v.gd g).blockBitmap.toNat = P.blockBitmap g ∧
    (v.gd g).inodeBitmap.toNat = P.inodeBitmap g ∧ (v.gd g).inodeTable.toNat = P.inodeTable g

instance : Decidable (PlacesOk fs P v) := by unfold PlacesOk; infer_instance

/-- **A volume stands for the view it decodes to.** -/
theorem abs_viewOf (G : Layout fs) (s : Vol)
    (hplaces : PlacesOk fs G.toPlaces (viewOf fs G.toPlaces s))
    (hsb : ∀ i, i < sbBytes →
      s.blocks (sbBlk fs.blockSize) (sbOff fs.blockSize + i) = fs.superblock s.counts i) :
    Abs G s (viewOf fs G.toPlaces s) := by
  refine ⟨fun r hr => ?_, fun _ _ => rfl, fun g hg => (hplaces g hg).1,
    fun g hg => (hplaces g hg).2.1, fun g hg => (hplaces g hg).2.2, rfl, hsb⟩
  cases r with
  | gdt k =>
    rintro g _ rfl
    rfl
  | blockBitmap g =>
    intro i hi
    have hmod : (fs.blockNo g i - fs.firstDataBlock) % fs.blocksPerGroup = i := by
      unfold Fs.blockNo
      rw [Nat.add_assoc, Nat.add_sub_cancel_left, Nat.mul_comm, Nat.mul_add_mod,
        Nat.mod_eq_of_lt hi]
    simp only [viewOf, groupOf_blockNo hi, hmod]
    rfl
  | inodeBitmap g =>
    intro i hi
    simp only [viewOf, inoPlace_inodeNo hi]
    rfl
  | inodeTable g k =>
    rintro i hi rfl
    simp only [viewOf, inoPlace_inodeNo hi]
    rfl

end JuampiOs.Ext2
