import JuampiOs.Lib.Table
import JuampiOs.Ext2.View

/-!
# Rules for the metadata functions

One rule for each function of the driver that touches metadata: descriptors, inodes, bitmaps,
the superblock, and the four allocators on top of them. Each rule gives the exact view the
function leaves.
-/

namespace JuampiOs.Ext2

open Function List View Spec Inode
open Buf Lib

variable {fs : Fs} {G : Layout fs} {v : View}

/-! ## Group descriptors -/

theorem Layout.gdBytes_dvd (G : Layout fs) : GroupDesc.bytes ∣ fs.blockSize :=
  dvd_trans (by decide) G.blockSize.dvd

variable {g x i : Nat}

theorem gdt_valid (hg : g < fs.groups) :
    (Role.gdt (g * GroupDesc.bytes / fs.blockSize)).Valid fs := by
  show _ * fs.blockSize < _
  have h1 := Nat.div_mul_le_self (g * GroupDesc.bytes) fs.blockSize
  have h2 : g * GroupDesc.bytes < fs.groups * GroupDesc.bytes :=
    mul_lt_mul_of_pos_right hg (by decide)
  omega

theorem gdPlace_eq (G : Layout fs) (hg : g < fs.groups) :
    gdPlace fs g = (G.loc (.gdt (g * GroupDesc.bytes / fs.blockSize)),
      g * GroupDesc.bytes % fs.blockSize) := by
  have hloc := G.loc_lt (gdt_valid hg)
  have hbytes : g * GroupDesc.bytes < 2 ^ 32 :=
    (Nat.mul_lt_mul_of_pos_right hg (by decide)).trans G.gdtBytes_lt
  have hloc' : fs.firstDataBlock + 1 + g * GroupDesc.bytes / fs.blockSize < 2 ^ 32 := hloc
  unfold gdPlace
  simp only [u32_of_lt hbytes]
  rw [u32_of_lt (Nat.lt_of_le_of_lt (Nat.le_add_right _ _) hloc'), u32_of_lt hloc']
  rfl

theorem readGroupDesc_exact (hg : g < fs.groups) :
    G.Exact (readGroupDesc fs g) v (some (v.gd g)) v := by
  unfold readGroupDesc
  rw [gdPlace_eq G hg]
  refine seq (readBlock_role (gdt_valid hg)) ?_
  rintro _ _ ⟨rfl, b, rfl, hb⟩
  refine ret ⟨?_, rfl⟩
  exact congrArg some (hb g hg rfl)

@[simps -fullyApplied gd inode bused iused data counts]
def View.setGd (v : View) (g : Nat) (gd : GroupDesc) : View :=
  { v with gd := update v.gd g gd }

/-- A new descriptor for the same bitmaps and table. -/
structure GroupDesc.SamePlaces (gd gd' : GroupDesc) : Prop where
  blockBitmap : gd'.blockBitmap = gd.blockBitmap
  inodeBitmap : gd'.inodeBitmap = gd.inodeBitmap
  inodeTable : gd'.inodeTable = gd.inodeTable

theorem roleStep_setGd {gd : GroupDesc} (hgd : (v.gd g).SamePlaces gd) :
    RoleStep fs v (v.setGd g gd) (.gdt (g * GroupDesc.bytes / fs.blockSize)) := by
  have hpick : ∀ (f : GroupDesc → UInt32), f gd = f (v.gd g) → ∀ h,
      f ((v.setGd g gd).gd h) = f (v.gd h) := by
    intro f hf h
    by_cases hh : h = g
    · subst hh
      simpa using hf
    · simp [hh]
  refine ⟨fun r b hr hok => ?_, rfl, rfl, hpick _ hgd.blockBitmap, hpick _ hgd.inodeBitmap,
    hpick _ hgd.inodeTable⟩
  cases r with
  | gdt k =>
    intro h hh hk
    have hne : h ≠ g := by
      rintro rfl
      exact hr (by rw [hk])
    have := hok h hh hk
    simpa [setGd, hne] using this
  | blockBitmap | inodeBitmap | inodeTable => exact hok

theorem writeGroupDesc_exact (hg : g < fs.groups) {gd : GroupDesc} (hgd : (v.gd g).SamePlaces gd) :
    G.Exact (writeGroupDesc fs g gd) v true (v.setGd g gd) := by
  unfold writeGroupDesc
  rw [gdPlace_eq G hg]
  refine seq (readBlock_role (gdt_valid hg)) ?_
  rintro _ _ ⟨rfl, b, rfl, hb⟩
  refine writeBlock_role (gdt_valid hg) (fun h hh hk => ?_) (roleStep_setGd hgd)
  have hfit := slot_fits G.blockSize_pos G.gdBytes_dvd g
  have hfit' := slot_fits G.blockSize_pos G.gdBytes_dvd h
  rw [take_blit _ _ hfit]
  by_cases hhg : h = g
  · subst hhg
    rw [GroupDesc.decode_blit]
    simp [setGd]
  have hapart := slot_apart (Ne.symm hhg) hk.symm
  rw [GroupDesc.decode_blit_of_ne (by omega)]
  have hread : GroupDesc.decode (b.take fs.blockSize) (h * GroupDesc.bytes % fs.blockSize) =
      GroupDesc.decode b (h * GroupDesc.bytes % fs.blockSize) :=
    GroupDesc.decode_congr fun k hk => take_of_lt b (by omega)
  rw [hread, hb h hh hk]
  simp [setGd, hhg]

/-! ## Inodes -/

theorem inoPlace_lt (G : Layout fs) (hx : fs.ValidIno x) :
    (inoPlace fs x).1 < fs.groups ∧ (inoPlace fs x).2 < fs.inodesPerGroup ∧
      fs.inodeNo (inoPlace fs x).1 (inoPlace fs x).2 = x := by
  have hpos := G.inodesPerGroup_pos
  have hdiv := Nat.div_add_mod (x - 1) fs.inodesPerGroup
  have hmul := mul_comm fs.inodesPerGroup ((x - 1) / fs.inodesPerGroup)
  obtain ⟨h1, h2⟩ := hx
  refine ⟨?_, Nat.mod_lt _ hpos, ?_⟩
  · show (x - 1) / fs.inodesPerGroup < fs.groups
    rw [Nat.div_lt_iff_lt_mul hpos]
    omega
  · show (x - 1) / fs.inodesPerGroup * fs.inodesPerGroup + (x - 1) % fs.inodesPerGroup + 1 = x
    omega

theorem inodeNo_inj {h j : Nat} (hi : i < fs.inodesPerGroup) (hj : j < fs.inodesPerGroup)
    (heq : fs.inodeNo g i = fs.inodeNo h j) : g = h ∧ i = j :=
  group_index_inj hi hj (by unfold Fs.inodeNo at heq; omega)

theorem inodeTable_valid (hg : g < fs.groups) (hi : i < fs.inodesPerGroup)
    (hpos : 0 < fs.inodeSize) :
    (Role.inodeTable g (i * fs.inodeSize / fs.blockSize)).Valid fs := by
  refine ⟨hg, ?_⟩
  have h1 := Nat.div_mul_le_self (i * fs.inodeSize) fs.blockSize
  have h2 : i * fs.inodeSize < fs.inodesPerGroup * fs.inodeSize :=
    mul_lt_mul_of_pos_right hi hpos
  omega

theorem Layout.inodeSize_pos (G : Layout fs) : 0 < fs.inodeSize := by
  have := G.inodeSize_ge
  unfold Inode.bytes at this
  omega

theorem inodeByte_lt (G : Layout fs) (hi : i < fs.inodesPerGroup) : i * fs.inodeSize < 2 ^ 32 := by
  have hle : fs.inodeSize ≤ fs.blockSize := Nat.le_of_dvd G.blockSize_pos G.inodeSize_dvd
  have h1 : i * fs.inodeSize ≤ 2 ^ 16 * 32768 :=
    Nat.mul_le_mul (by have := G.inodesPerGroup_lt; omega) (hle.trans G.blockSize_le)
  omega

/-- Where the driver looks for inode `i` of group `g`, given the group's descriptor. -/
theorem inodePlace_eq (hg : g < fs.groups) (hi : i < fs.inodesPerGroup)
    {table : Nat} (htable : table = G.inodeTable g) :
    u32 (table + u32 (i * fs.inodeSize) / fs.blockSize) =
      G.loc (.inodeTable g (i * fs.inodeSize / fs.blockSize)) := by
  subst htable
  rw [u32_of_lt (inodeByte_lt G hi)]
  exact u32_of_lt (G.loc_lt (inodeTable_valid hg hi G.inodeSize_pos))

/-- A view whose volume stands for it has its descriptors point to the layout's places. -/
theorem Spec.of_places {α : Type} {p : Io α} {Q : α → View → Prop}
    (h : (∀ g, g < fs.groups → (v.gd g).blockBitmap.toNat = G.blockBitmap g ∧
      (v.gd g).inodeBitmap.toNat = G.inodeBitmap g ∧
      (v.gd g).inodeTable.toNat = G.inodeTable g) → G.Spec p v Q) : G.Spec p v Q :=
  fun s hs => h (fun g hg => ⟨hs.blockBitmap g hg, hs.inodeBitmap g hg, hs.inodeTable g hg⟩) s hs

theorem readInode_exact (hx : fs.ValidIno x) : G.Exact (readInode fs x) v (some (v.inode x)) v := by
  obtain ⟨hg, hi, hno⟩ := inoPlace_lt G hx
  refine of_places fun hplaces => ?_
  unfold readInode
  rw [if_neg (by have := hx.1; omega)]
  refine Exact.seq (readGroupDesc_exact hg) ?_
  show G.Spec (readBlock (u32 ((v.gd (inoPlace fs x).1).inodeTable.toNat +
    u32 ((inoPlace fs x).2 * fs.inodeSize) / fs.blockSize)) >>= _) v _
  rw [inodePlace_eq hg hi (hplaces _ hg).2.2]
  refine seq (readBlock_role (inodeTable_valid hg hi G.inodeSize_pos)) ?_
  rintro _ _ ⟨rfl, b, rfl, hb⟩
  refine ret ⟨?_, rfl⟩
  rw [u32_of_lt (inodeByte_lt G hi), hb _ hi rfl, hno]

@[simps -fullyApplied gd inode bused iused data counts]
def View.setInode (v : View) (x : Nat) (ino : Inode) : View :=
  { v with inode := update v.inode x ino }

theorem roleStep_setInode (G : Layout fs) (hx : fs.ValidIno x) (ino : Inode) :
    RoleStep fs v (v.setInode x ino) (.inodeTable (inoPlace fs x).1
      ((inoPlace fs x).2 * fs.inodeSize / fs.blockSize)) := by
  obtain ⟨_, hi, hno⟩ := inoPlace_lt G hx
  refine ⟨fun r b hr hok => ?_, rfl, rfl, fun _ => rfl, fun _ => rfl, fun _ => rfl⟩
  cases r with
  | gdt | blockBitmap | inodeBitmap => exact hok
  | inodeTable g k =>
    intro j hj hk
    have hne : fs.inodeNo g j ≠ x := by
      intro heq
      obtain ⟨rfl, rfl⟩ := inodeNo_inj hj hi (heq.trans hno.symm)
      exact hr (by rw [hk])
    have := hok j hj hk
    simpa [setInode, hne] using this

theorem writeInode_exact (hx : fs.ValidIno x) (ino : Inode) :
    G.Exact (writeInode fs x ino) v true (v.setInode x ino) := by
  obtain ⟨hg, hi, hno⟩ := inoPlace_lt G hx
  refine of_places fun hplaces => ?_
  have hvalid := inodeTable_valid hg hi G.inodeSize_pos
  refine Exact.seq (readGroupDesc_exact hg) ?_
  show G.Spec (readBlock (u32 ((v.gd (inoPlace fs x).1).inodeTable.toNat +
    u32 ((inoPlace fs x).2 * fs.inodeSize) / fs.blockSize)) >>= _) v _
  rw [inodePlace_eq hg hi (hplaces _ hg).2.2]
  refine seq (readBlock_role hvalid) ?_
  rintro _ _ ⟨rfl, b, rfl, hb⟩
  refine writeBlock_role hvalid (fun j hj hk => ?_) (roleStep_setInode G hx ino)
  have hge := G.inodeSize_ge
  have hfit := slot_fits G.blockSize_pos G.inodeSize_dvd (inoPlace fs x).2
  have hfit' := slot_fits G.blockSize_pos G.inodeSize_dvd j
  rw [u32_of_lt (inodeByte_lt G hi), take_blit _ _ (by omega)]
  by_cases hji : j = (inoPlace fs x).2
  · rw [hji, decode_blit, hno]
    simp [setInode]
  have hapart := slot_apart (Ne.symm hji) hk.symm
  have hne : fs.inodeNo (inoPlace fs x).1 j ≠ x := fun heq =>
    hji (inodeNo_inj hj hi (heq.trans hno.symm)).2
  rw [decode_blit_of_ne (by omega)]
  have hread : decode (b.take fs.blockSize) (j * fs.inodeSize % fs.blockSize) =
      decode b (j * fs.inodeSize % fs.blockSize) :=
    decode_congr fun k hk => take_of_lt b (by omega)
  rw [hread, hb j hj hk]
  simp [setInode, hne]

/-! ## The superblock -/

@[simps -fullyApplied gd inode bused iused data counts]
def View.setCounts (v : View) (c : Counts) : View := { v with counts := c }

/-- Changing a counter and writing the superblock back, before anything else is done. Between
the two the superblock on the volume is out of date, so there is no rule for either alone. -/
theorem updateCounts_seq {β : Type} {k : Bool → Io β} (f : Counts → Counts)
    {Q : β → View → Prop} (hk : G.Spec (k true) (v.setCounts (f v.counts)) Q) :
    G.Spec (getCounts >>= fun c => setCounts (f c) >>= fun _ => writeSuperblock fs >>= k) v Q := by
  intro s hs
  have hle := G.blockSize.sb_le
  -- the volume with the new counters in memory and on its superblock
  refine hk _ ⟨fun r hr => ?_, fun b hb => ?_, hs.blockBitmap, hs.inodeBitmap, hs.inodeTable,
    ?_, fun i hi => ?_⟩
  · simp only [Vol.setBlock, update_of_ne (Layout.loc_ne (G := G) hr)]
    have := hs.role r hr
    cases r <;> exact this
  · simp only [Vol.setBlock, update_of_ne hb.1]
    exact hs.data b hb
  · show f s.counts = f v.counts
    rw [hs.counts]
  · have hi' : i < 104 := hi
    simp only [Vol.setBlock, update_self]
    rw [blit_of_mem (by omega), Nat.add_sub_cancel_left, blit_of_mem (by simp only [sbBytes]; omega),
      Nat.sub_zero]
    show fs.superblock (f s.counts) i = fs.superblock (f v.counts) i
    rw [hs.counts]

/-! ## Bitmaps -/

theorem bitmapAlloc_some {r : Role} (hr : r.Valid fs) {n : Nat} {used : Nat → Bool}
    (hread : ∀ b, RoleOk fs v b r → ∀ i, i < n → b.bit i = used i)
    (hfree : ∃ i, i < n ∧ used i = false) {next : Nat → View}
    (hwrite : ∀ b i, RoleOk fs v b r → i < n → RoleOk fs (next i) ((b.setBit i).take fs.blockSize) r)
    (hstep : ∀ i, i < n → RoleStep fs v (next i) r) :
    G.Spec (bitmapAlloc (G.loc r) n) v fun o v' =>
      ∃ i, i < n ∧ used i = false ∧ o = some i ∧ v' = next i := by
  refine seq (readBlock_role hr) ?_
  rintro _ _ ⟨rfl, b, rfl, hb⟩
  obtain ⟨i, hi, hclear⟩ := hfree
  have hsome : ((range n).find? fun i => !b.bit i).isSome := by
    rw [find?_isSome]
    exact ⟨i, mem_range.mpr hi, by simp [hread b hb i hi, hclear]⟩
  obtain ⟨j, hj⟩ := Option.isSome_iff_exists.mp hsome
  have hjn : j < n := mem_range.mp (mem_of_find?_eq_some hj)
  have hjfree : used j = false := by
    have := find?_some hj
    rw [hread b hb j hjn] at this
    simpa using this
  simp only [hj]
  refine Exact.seq (writeBlock_role hr (hwrite b j hb hjn) (hstep j hjn)) ?_
  exact ret ⟨j, hjn, hjfree, rfl, rfl⟩

/-- The loop of an allocator over the groups, one round: a group without a clear bit is skipped,
which shows in its counter, and in any other the first clear bit is set and its thing taken. -/
theorem allocRound_spec {per : Nat} (hg : g < fs.groups) {free : GroupDesc → UInt16}
    {bitmap : GroupDesc → UInt32} {r : Role} (hr : r.Valid fs)
    (hbitmap : (bitmap (v.gd g)).toNat = G.loc r) {used : Nat → Bool}
    (hcount : (free (v.gd g)).toNat = count per fun i => !used i)
    (hread : ∀ b, RoleOk fs v b r → ∀ i, i < per → b.bit i = used i) (next : Nat → View)
    (hwrite : ∀ b i, RoleOk fs v b r → i < per →
      RoleOk fs (next i) ((b.setBit i).take fs.blockSize) r)
    (hstep : ∀ i, i < per → RoleStep fs v (next i) r) {skip : Io Nat}
    {take : GroupDesc → Nat → Io Nat} {Q : Nat → View → Prop}
    (hskip : (∀ i, i < per → used i = true) → G.Spec skip v Q)
    (htake : ∀ i, i < per → used i = false → G.Spec (take (v.gd g) i) (next i) Q) :
    G.Spec (do
      match ← readGroupDesc fs g with
      | none => skip
      | some gd =>
        if free gd = 0 then skip
        else
          match ← bitmapAlloc (bitmap gd).toNat per with
          | none => skip
          | some bit => take gd bit) v Q := by
  refine Exact.seq (readGroupDesc_exact hg) ?_
  dsimp only
  split
  · -- the counter says the group is full
    rename_i hzero
    rw [hzero] at hcount
    exact hskip fun i hi => by simpa using count_eq_zero.mp hcount.symm i hi
  rename_i hnonzero
  have hexists : ∃ i, i < per ∧ used i = false := by
    by_contra hno
    refine hnonzero (UInt16.toNat_inj.mp (hcount.trans (count_eq_zero.mpr fun i hi => ?_)))
    by_contra hf
    exact hno ⟨i, hi, by simpa using hf⟩
  rw [hbitmap]
  refine seq (bitmapAlloc_some hr hread hexists hwrite hstep) ?_
  rintro _ _ ⟨i, hi, hclear, rfl, rfl⟩
  exact htake i hi hclear

theorem bitmapFree_exact {r : Role} (hr : r.Valid fs) {v' : View}
    (hwrite : ∀ b, RoleOk fs v b r → RoleOk fs v' ((b.clearBit i).take fs.blockSize) r)
    (hstep : RoleStep fs v v' r) :
    G.Exact (bitmapFree (G.loc r) i) v () v' := by
  refine seq (readBlock_role hr) ?_
  rintro _ _ ⟨rfl, b, rfl, hb⟩
  refine Exact.seq (writeBlock_role hr (hwrite b hb) hstep) ?_
  exact Exact.ret ()

end JuampiOs.Ext2
