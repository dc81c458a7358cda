import JuampiOs.Bcache.Runs
import JuampiOs.Ext2.Mount

/-!
# What a mount checks

`ext2_mount` looks at the magic number of the superblock and at nothing else. `Usable` is what the
other functions rely on, and `SuperblockOk` when the geometry of a superblock has it.
-/

namespace JuampiOs.Ext2

variable {st : Mount} {dev : BlockDev}

/-- The geometry is usable by the functions of the driver: a bitmap block has a bit for everything in
a group, the cache works in blocks of this size, the groups cover the volume, and no inode record
crosses the end of a block. -/
structure Usable (st : Mount) : Prop where
  blocksPerGroup : 0 < st.fs.blocksPerGroup ∧ st.fs.blocksPerGroup ≤ 8 * st.fs.blockSize
  inodesPerGroup : 0 < st.fs.inodesPerGroup ∧ st.fs.inodesPerGroup ≤ 8 * st.fs.blockSize
  cache : st.fs.blockSize % 512 = 0 ∧ ∃ c, st.cache = some c ∧ c.blockSize = st.fs.blockSize
  groups : st.fs.firstDataBlock ≤ st.fs.blocksCount ∧
    st.fs.blocksCount ≤ st.fs.firstDataBlock + st.fs.groups * st.fs.blocksPerGroup ∧
    st.fs.groups * st.fs.blocksPerGroup < 2 ^ 32
  inodes : ∀ i, i < st.fs.inodesPerGroup →
    u32 (i * st.fs.inodeSize) % st.fs.blockSize + st.fs.inodeSize ≤ st.fs.blockSize

/-- The fields of a superblock that make a usable geometry. -/
structure SuperblockOk (sb : Buf) : Prop where
  logBlockSize : (sb.get32 24).toNat < 22
  blocksPerGroup : 0 < (sb.get32 32).toNat ∧
    (sb.get32 32).toNat ≤ 8 * (1024 * 2 ^ (sb.get32 24).toNat)
  inodesPerGroup : 0 < (sb.get32 40).toNat ∧
    (sb.get32 40).toNat ≤ 8 * (1024 * 2 ^ (sb.get32 24).toNat)
  /-- the sum in the group count does not wrap -/
  groups : (sb.get32 20).toNat ≤ (sb.get32 4).toNat ∧
    (sb.get32 4).toNat - (sb.get32 20).toNat + (sb.get32 32).toNat ≤ 2 ^ 32
  /-- inode records fill a block, or one block holds them all -/
  inodeSize : (Fs.ofSuperblock sb).inodeSize ∣ 1024 * 2 ^ (sb.get32 24).toNat ∨
    (sb.get32 40).toNat * (Fs.ofSuperblock sb).inodeSize ≤ 1024 * 2 ^ (sb.get32 24).toNat

theorem ofSuperblock_blockSize (sb : Buf) : (Fs.ofSuperblock sb).blockSize =
    if (sb.get32 24).toNat < 22 then 1024 * 2 ^ (sb.get32 24).toNat else 0 := by
  show 1024 * 2 ^ (sb.get32 24).toNat % 2 ^ 32 = _
  generalize (sb.get32 24).toNat = k
  have hpow : 1024 * 2 ^ k = 2 ^ (10 + k) := by rw [Nat.pow_add]
  split
  · rename_i hk
    refine Nat.mod_eq_of_lt ?_
    rw [hpow]
    exact Nat.pow_lt_pow_right (by decide) (by omega)
  · rename_i hk
    rw [hpow, show 10 + k = 32 + (k - 22) by omega, pow_add]
    exact Nat.mul_mod_right _ _

theorem groups_cover {count first per : Nat} (hcount : count < 2 ^ 32) (hfirst : first ≤ count)
    (hpos : 0 < per) (hper : per < 2 ^ 32) :
    let groups := (2 ^ 32 + count - first + per - 1) % 2 ^ 32 / per
    (count ≤ first + groups * per ∧ groups * per < 2 ^ 32) ↔ count - first + per ≤ 2 ^ 32 := by
  intro groups
  have hdm := Nat.div_add_mod ((2 ^ 32 + count - first + per - 1) % 2 ^ 32) per
  have hmod := Nat.mod_lt ((2 ^ 32 + count - first + per - 1) % 2 ^ 32) hpos
  rw [mul_comm] at hdm
  change groups * per + _ = _ at hdm
  constructor
  · rintro ⟨hcover, _⟩
    by_contra hwrap
    -- after a wrap the sum is below `per`, and there are no groups
    have hsum : (2 ^ 32 + count - first + per - 1) % 2 ^ 32 = count - first + per - 1 - 2 ^ 32 := by
      omega
    have hzero : groups = 0 := by
      show _ / per = 0
      rw [hsum]
      exact Nat.div_eq_of_lt (by omega)
    rw [hzero] at hcover
    omega
  · intro hle
    have hsum : (2 ^ 32 + count - first + per - 1) % 2 ^ 32 = count - first + per - 1 := by omega
    rw [hsum] at hdm hmod
    omega

theorem records_inside_iff {bs size n k : Nat} (hbs : bs = 2 ^ k) (hk : k ≤ 32) (hsize : 0 < size) :
    (∀ i, i < n → u32 (i * size) % bs + size ≤ bs) ↔ size ∣ bs ∨ n * size ≤ bs := by
  have hu32 : ∀ i, u32 (i * size) % bs = i * size % bs := fun i =>
    Nat.mod_mod_of_dvd _ (hbs ▸ pow_dvd_pow 2 hk)
  constructor
  · intro hall
    by_contra hno
    obtain ⟨hdvd, hmany⟩ := not_or.mp hno
    -- the first record past the last whole one crosses
    have hdm := Nat.div_add_mod bs size
    have hpos : bs % size ≠ 0 := fun h0 => hdvd (Nat.dvd_of_mod_eq_zero h0)
    have hlt := Nat.mod_lt bs hsize
    rw [mul_comm] at hdm
    have hq : bs / size < n := by
      by_contra hge
      have := Nat.mul_le_mul_right size (Nat.le_of_not_lt hge)
      omega
    have hcross := hall (bs / size) hq
    rw [hu32, Nat.mod_eq_of_lt (by omega)] at hcross
    omega
  · intro h i hi
    rw [hu32]
    rcases h with ⟨q, rfl⟩ | hone
    · rw [mul_comm i size, Nat.mul_mod_mul_left]
      have hq : 0 < q := pos_of_ne_zero fun h0 => by
        have := Nat.two_pow_pos k
        rw [← hbs, h0] at this
        omega
      have : i % q + 1 ≤ q := Nat.mod_lt i hq
      calc size * (i % q) + size = size * (i % q + 1) := by rw [mul_add, mul_one]
        _ ≤ size * q := Nat.mul_le_mul_left _ this
    · have : (i + 1) * size ≤ n * size := Nat.mul_le_mul_right _ hi
      rw [add_mul, one_mul] at this
      rw [Nat.mod_eq_of_lt (by omega)]
      omega

theorem mount_eq (h : (ext2Mount st dev).1 = true) : ∃ sb, (dev.read 2 2).1 = some sb ∧
    (ext2Mount st dev).2.fs = Fs.ofSuperblock sb ∧
    (ext2Mount st dev).2.cache = bcacheCreate (Fs.ofSuperblock sb).blockSize EXT2_CACHE_BLOCKS := by
  unfold ext2Mount at h ⊢
  by_cases hsec : dev.nsectors = 0
  · rw [if_pos hsec] at h
    cases h
  rw [if_neg hsec] at h ⊢
  generalize dev.read 2 2 = r at h ⊢
  rcases r with ⟨_ | sb, dev'⟩
  · cases h
  dsimp only at h ⊢
  by_cases hmagic : sb.get16 56 ≠ EXT2_MAGIC
  · rw [if_pos hmagic] at h
    cases h
  · rw [if_neg hmagic]
    exact ⟨sb, rfl, rfl, rfl⟩

/-- **A mounted geometry is usable exactly when the superblock's fields make one**: the mount itself
checks none of them. Without blocks in a group it does not return, since it divides by them. -/
theorem mount_usable_iff (h : (ext2Mount st dev).1 = true)
    (hdiv : (ext2Mount st dev).2.fs.blocksPerGroup ≠ 0) :
    Usable (ext2Mount st dev).2 ↔ ∀ sb, (dev.read 2 2).1 = some sb → SuperblockOk sb := by
  obtain ⟨sb, hsb, hfs, hcache⟩ := mount_eq h
  generalize (ext2Mount st dev).2 = st' at hfs hcache hdiv ⊢
  have hone : (∀ sb', (dev.read 2 2).1 = some sb' → SuperblockOk sb') ↔ SuperblockOk sb := by
    rw [hsb]
    exact ⟨fun hall => hall sb rfl, fun hok sb' heq => Option.some.inj heq ▸ hok⟩
  rw [hone]
  have hbs := ofSuperblock_blockSize sb
  have hisize : 0 < (Fs.ofSuperblock sb).inodeSize :=
    Nat.lt_of_lt_of_le (by decide) (Nat.le_max_right ..)
  rw [hfs] at hdiv
  have hbpg : (sb.get32 32).toNat ≠ 0 := hdiv
  have hgroups := fun hfirst => @groups_cover (sb.get32 4).toNat (sb.get32 20).toNat
    (sb.get32 32).toNat (UInt32.toNat_lt _) hfirst (Nat.pos_of_ne_zero hbpg) (UInt32.toNat_lt _)
  by_cases hlog : (sb.get32 24).toNat < 22
  swap
  · -- no block size is left of the shift
    rw [if_neg hlog] at hbs
    refine iff_of_false (fun hu => ?_) fun hok => hlog hok.logBlockSize
    have := hu.blocksPerGroup
    rw [hfs, hbs] at this
    omega
  rw [if_pos hlog] at hbs
  have hpow : (Fs.ofSuperblock sb).blockSize = 2 ^ (10 + (sb.get32 24).toNat) := by
    rw [hbs, Nat.pow_add]
  have hrecords := records_inside_iff (n := (sb.get32 40).toNat) hpow (by omega) hisize
  constructor
  · intro hu
    obtain ⟨h1, h2, _, h4, h5⟩ := hu
    rw [hfs] at h1 h2 h4 h5
    rw [hbs] at h1 h2
    refine ⟨hlog, h1, h2, ⟨h4.1, (hgroups h4.1).mp h4.2⟩, ?_⟩
    rw [← hbs]
    exact hrecords.mp h5
  · intro hok
    obtain ⟨c, hc⟩ := Option.isSome_iff_exists.mp
      (show (bcacheCreate (Fs.ofSuperblock sb).blockSize EXT2_CACHE_BLOCKS).isSome = true from
        bcacheCreate_isSome (by rw [hpow]; exact Nat.two_pow_pos _)
          (by rw [hbs]; exact Nat.mod_eq_zero_of_dvd (Dvd.dvd.mul_right (by decide) _)) (by decide)
          (by decide))
    have hinode := hok.inodeSize
    rw [← hbs] at hinode
    refine ⟨?_, ?_, ⟨?_, c, hcache.trans hc, ?_⟩, ?_, ?_⟩ <;> rw [hfs]
    · rw [hbs]
      exact hok.blocksPerGroup
    · rw [hbs]
      exact hok.inodesPerGroup
    · rw [hbs]
      exact Nat.mod_eq_zero_of_dvd (Dvd.dvd.mul_right (by decide) _)
    · exact (bcacheCreate_wf hc).2.1
    · exact ⟨hok.groups.1, (hgroups hok.groups.1).mpr hok.groups.2⟩
    · exact hrecords.mpr hinode

/-- A device with the superblock of a volume of 8193 blocks of 1 KiB. -/
def sbDev (inodesPerGroup : UInt32) : BlockDev :=
  let sb := (((Buf.zero.put32 4 8193).put32 20 1).put32 32 8192).put32 40 inodesPerGroup |>.put16 56
    EXT2_MAGIC
  ⟨fun i => sb (i - 1024), 16386, fun _ => false, fun _ => none, 0, 0⟩

/-- Nothing mounted. -/
def unmounted : Mount := ⟨false, Fs.ofSuperblock Buf.zero, ⟨0, 0⟩, none, sbDev 0⟩

/-- A volume of 8193 blocks. -/
theorem mount_usable_8193 : Usable (ext2Mount unmounted (sbDev 1024)).2 := by
  refine (mount_usable_iff (by decide +kernel) (by decide +kernel)).mpr fun sb hsb => ?_
  obtain rfl := Option.some.inj hsb
  exact ⟨by decide +kernel, by decide +kernel, by decide +kernel, by decide +kernel,
    .inl (by decide +kernel)⟩

/-- A volume without inodes in a group is mounted. -/
theorem mount_no_inodes : (ext2Mount unmounted (sbDev 0)).1 = true ∧
    (ext2Mount unmounted (sbDev 0)).2.fs.inodesPerGroup = 0 ∧
    ¬ Usable (ext2Mount unmounted (sbDev 0)).2 := by
  have hzero : (ext2Mount unmounted (sbDev 0)).2.fs.inodesPerGroup = 0 := by decide +kernel
  refine ⟨by decide +kernel, hzero, fun hu => ?_⟩
  have := hu.inodesPerGroup.1
  omega

end JuampiOs.Ext2
