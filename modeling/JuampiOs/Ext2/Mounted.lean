import JuampiOs.Bcache.Runs
import JuampiOs.Ext2.Dirs
import JuampiOs.Ext2.Mount

/-!
# The mounted file system and the device

`Presents G st v`: through the cache and the device, the mounted state `st` stands for the file
system `v`. What was proved of a function of the driver holds of a public call none of whose write
commands fails (`Presents.mutate`), a flush puts the whole file system on the device (`OnDisk`), and
mounting a device presents what it holds (`mount_presents`). `Shows` adds that no write fails from
now on.
-/

namespace JuampiOs.Ext2

open Lib Cached BlockDev Buf Cached

variable {fs : Fs} {G : Layout fs} {st : Mount} {v : View}

/-- The mounted state stands for the file system `v`, and no read fails. -/
def Presents (G : Layout fs) (st : Mount) (v : View) : Prop := ∃ s, Couples fs st s ∧ Abs G s v

/-- The mounted state shows the file system `v`, and no transfer fails from now on. -/
structure Shows (G : Layout fs) (st : Mount) (v : View) : Prop where
  presents : Presents G st v
  writes : st.dev.WritesOk

/-- The device by itself holds the file system `v`. -/
def OnDisk (G : Layout fs) (dev : BlockDev) (v : View) : Prop :=
  Abs G ⟨dev.block fs.blockSize, v.counts⟩ v

/-! ## Calls -/

theorem syncLocked_follows (h : st.CacheWf) :
    (syncLocked st).2.CacheWf ∧ SameOracle st.dev (syncLocked st).2.dev := by
  unfold syncLocked
  split
  · rename_i c hc
    have hf := @syncSlots_follows ⟨c, st.dev⟩ (List.range c.nslots) (h c hc)
    refine ⟨fun d hd => ?_, hf.oracle⟩
    obtain rfl := Option.some.inj hd
    exact hf.wf
  · exact ⟨h, .refl _⟩

theorem call_follows {α : Type} (h : st.CacheWf) (fail : α) (p : Io α) :
    (st.call fail p).2.CacheWf ∧ SameOracle st.dev (st.call fail p).2.dev := by
  unfold Mount.call
  split
  · exact run_follows h p
  · exact ⟨h, .refl _⟩

namespace Presents

variable (h : Presents G st v)
include h

theorem fs_eq : st.fs = fs := by
  obtain ⟨s, hc, _⟩ := h
  exact hc.fs_eq

theorem cacheWf : st.CacheWf := by
  obtain ⟨s, hc, _⟩ := h
  exact hc.cacheWf

theorem call {α : Type} {p : Io α} (fail : α) {Q : α → View → Prop}
    (hcalm : Calm st.dev (st.call fail p).2.dev) (hp : G.Spec p v Q) :
    ∃ v', Presents G (st.call fail p).2 v' ∧ Q (st.call fail p).1 v' := by
  obtain ⟨s, hc, ha⟩ := h
  unfold Mount.call at hcalm ⊢
  rw [if_pos hc.mounted] at hcalm ⊢
  obtain ⟨s', hc', v', ha', hq⟩ := hc.run_of_wp G.blockSize p hcalm (hp s ha)
  exact ⟨v', ⟨s', hc', ha'⟩, hq⟩

theorem sync (hcalm : Calm st.dev (syncLocked st).2.dev) :
    Presents G (syncLocked st).2 v ∧ OnDisk G (syncLocked st).2.dev v := by
  obtain ⟨s, hc, ha⟩ := h
  obtain ⟨c, hcache, hwf, hbs, hcoh⟩ := hc.cache
  obtain ⟨hcoh', hdisk⟩ := bcacheSync_coherent hwf hcoh
  have hsync : (syncLocked st).2 = st.withCached (bcacheSync ⟨c, st.dev⟩).2 := by
    unfold syncLocked
    rw [hcache]
  rw [hsync] at hcalm ⊢
  have hret : (bcacheSync ⟨c, st.dev⟩).1 = true := syncSlots_fst _ hwf hcalm
  refine ⟨⟨s, hc.withCached hcache (syncSlots_follows _ hwf) hcoh', ha⟩, ?_⟩
  have hblocks : (bcacheSync ⟨c, st.dev⟩).2.dev.block fs.blockSize = s.blocks := by
    funext b
    have := hdisk hret b
    rw [hbs] at this
    exact this
  show Abs G ⟨(bcacheSync ⟨c, st.dev⟩).2.dev.block fs.blockSize, v.counts⟩ v
  rw [hblocks, ← ha.counts]
  exact ha

/-- **What a function of the driver does, the public call does, and it is on the device when the
call returns**, if no write command that the call issues fails. -/
theorem mutate {p : Io Bool} {Q : Bool → View → Prop} (hcalm : Calm st.dev (st.mutate p).2.dev)
    (hp : G.Spec p v Q) :
    ∃ v', Presents G (st.mutate p).2 v' ∧ OnDisk G (st.mutate p).2.dev v' ∧
      Q (st.mutate p).1 v' := by
  -- the body and the flush each issue a part of the commands
  obtain ⟨hwf, horacle⟩ := call_follows h.cacheWf false p
  obtain ⟨v', hs, hq⟩ := h.call false (hcalm.left (syncLocked_follows hwf).2) hp
  have hflush := hs.sync (hcalm.right horacle)
  exact ⟨v', hflush.1, hflush.2, hq⟩

end Presents

namespace Shows

variable (h : Shows G st v)
include h

theorem fs_eq : st.fs = fs := h.presents.fs_eq

theorem call {α : Type} {p : Io α} (fail : α) {Q : α → View → Prop} (hp : G.Spec p v Q) :
    ∃ v', Shows G (st.call fail p).2 v' ∧ Q (st.call fail p).1 v' := by
  obtain ⟨v', hs, hq⟩ := h.presents.call fail (h.writes.calm _) hp
  exact ⟨v', ⟨hs, (call_follows h.presents.cacheWf fail p).2.writesOk h.writes⟩, hq⟩

theorem run {α : Type} {p : Io α} {Q : α → View → Prop} (hp : G.Spec p v Q) :
    ∃ v', Shows G (st.run p).2 v' ∧ Q (st.run p).1 v' := by
  obtain ⟨s, hc, ha⟩ := h.presents
  obtain ⟨s', hc', v', ha', hq⟩ := hc.run_of_wp G.blockSize p (h.writes.calm _) (hp s ha)
  exact ⟨v', ⟨⟨s', hc', ha'⟩, (run_follows hc.cacheWf p).2.writesOk h.writes⟩, hq⟩

theorem call_exact {α : Type} {p : Io α} {fail a : α} (hp : G.Exact p v a v) :
    (st.call fail p).1 = a ∧ Shows G (st.call fail p).2 v := by
  obtain ⟨v', hs, ha, hv⟩ := h.call fail hp
  exact ⟨ha, hv ▸ hs⟩

theorem readPath (hr : Readable G v) (path : List UInt8) :
    (ext2ReadPath st path).1 = v.readPath fs path ∧ Shows G (ext2ReadPath st path).2 v := by
  unfold ext2ReadPath
  rw [h.fs_eq]
  exact h.call_exact (hr.readPath_exact path)

theorem statPath (hr : Readable G v) (path : List UInt8) :
    (ext2StatPath st path).1 = v.statPath fs path ∧ Shows G (ext2StatPath st path).2 v := by
  unfold ext2StatPath
  rw [h.fs_eq]
  exact h.call_exact (hr.statPath_exact path)

theorem listPath (hr : Readable G v) (path : List UInt8) :
    (ext2List st path).1 = v.listPath fs path ∧ Shows G (ext2List st path).2 v := by
  unfold ext2List
  rw [h.fs_eq]
  exact h.call_exact (hr.listPath_exact path)

theorem sync : Shows G (syncLocked st).2 v ∧ OnDisk G (syncLocked st).2.dev v := by
  obtain ⟨hs, hdisk⟩ := h.presents.sync (h.writes.calm _)
  exact ⟨⟨hs, (syncLocked_follows h.presents.cacheWf).2.writesOk h.writes⟩, hdisk⟩

theorem mutate {p : Io Bool} {Q : Bool → View → Prop} (hp : G.Spec p v Q) :
    ∃ v', Shows G (st.mutate p).2 v' ∧ OnDisk G (st.mutate p).2.dev v' ∧ Q (st.mutate p).1 v' := by
  obtain ⟨v', hs, hq⟩ := h.call false hp
  exact ⟨v', hs.sync.1, hs.sync.2, hq⟩

end Shows

/-! ## Mounting -/

/-- The parameters are those of a superblock that `ext2_mount` accepts. -/
structure Fs.FromDisk (fs : Fs) : Prop where
  params : Fs.ofSuperblock fs.raw = fs
  magic : fs.raw.get16 56 = EXT2_MAGIC

/-- Bytes of the superblock other than the two counters. -/
def Param (i : Nat) : Prop := i < 12 ∨ (20 ≤ i ∧ i < sbBytes)

theorem superblock_param (c : Counts) {i : Nat} (hi : Param i) : fs.superblock c i = fs.raw i := by
  unfold Param at hi
  unfold Fs.superblock put32
  rw [blit_of_notMem (by omega), blit_of_notMem (by omega)]

theorem ofSuperblock_congr {a b : Buf} (h : ∀ i, Param i → a i = b i) :
    Fs.ofSuperblock a = Fs.ofSuperblock b := by
  have h16 : ∀ o, 20 ≤ o → o + 2 ≤ sbBytes → a.get16 o = b.get16 o := fun o h1 h2 =>
    get16_congr fun k hk => h _ (.inr (by omega))
  have h32 : ∀ o, 20 ≤ o → o + 4 ≤ sbBytes → a.get32 o = b.get32 o := fun o h1 h2 =>
    get32_congr fun k hk => h _ (.inr (by omega))
  have h4 : a.get32 4 = b.get32 4 := get32_congr fun k hk => h _ (.inl (by omega))
  have hraw : ((a.take sbBytes).put32 12 0).put32 16 0 = ((b.take sbBytes).put32 12 0).put32 16 0 := by
    funext i
    unfold put32
    by_cases h16 : 16 ≤ i ∧ i < 16 + 4
    · rw [blit_of_mem h16, blit_of_mem h16]
    rw [blit_of_notMem h16, blit_of_notMem h16]
    by_cases h12 : 12 ≤ i ∧ i < 12 + 4
    · rw [blit_of_mem h12, blit_of_mem h12]
    rw [blit_of_notMem h12, blit_of_notMem h12]
    by_cases hi : i < sbBytes
    · rw [take_of_lt _ hi, take_of_lt _ hi]
      exact h i (by unfold Param; omega)
    · rw [take_of_ge _ (by omega), take_of_ge _ (by omega)]
  unfold Fs.ofSuperblock
  simp only [hraw, h4, h32 20 (by decide) (by decide), h32 24 (by decide) (by decide),
    h32 32 (by decide) (by decide), h32 40 (by decide) (by decide), h32 76 (by decide) (by decide),
    h16 88 (by decide) (by decide), h32 96 (by decide) (by decide), h32 100 (by decide) (by decide)]

/-- The superblock as `ext2_mount` reads it from a device that holds the file system. -/
theorem OnDisk.read_sb {dev : BlockDev} (h : OnDisk G dev v) (hr : dev.ReadsOk) :
    ∃ sb, dev.read 2 2 = (some sb, { dev with nreads := dev.nreads + 1 }) ∧
      ∀ i, i < sbBytes → sb i = fs.superblock v.counts i := by
  have hle := G.blockSize.sb_le
  have haddr := BlockSizeOk.sb_addr fs.blockSize
  refine ⟨take 1024 fun i => dev.disk (1024 + i), ?_, fun i hi => ?_⟩
  · unfold BlockDev.read
    rw [hr, if_neg (by decide)]
  · have hi' : i < 104 := hi
    rw [← h.superblock i hi, take_of_lt _ (by omega)]
    show _ = dev.block fs.blockSize (sbBlk fs.blockSize) (sbOff fs.blockSize + i)
    rw [BlockDev.block, take_of_lt _ (by omega)]
    congr 1
    omega

variable {dev : BlockDev} (hfs : fs.FromDisk) (h : OnDisk G dev v) (hsec : dev.nsectors ≠ 0)
  (hr : dev.ReadsOk)
include hfs h hsec hr

/-- **Mounting a device presents what it holds.** -/
theorem mount_presents (st : Mount) :
    (ext2Mount st dev).1 = true ∧ Presents G (ext2Mount st dev).2 v ∧
      SameOracle dev (ext2Mount st dev).2.dev := by
  obtain ⟨sb, hread, hsb⟩ := h.read_sb hr
  have hparam : ∀ i, Param i → sb i = fs.raw i := fun i hi => by
    rw [hsb i (by unfold Param sbBytes at hi; unfold sbBytes; omega), superblock_param v.counts hi]
  have hmagic : sb.get16 56 = EXT2_MAGIC := by
    rw [← hfs.magic]
    exact get16_congr fun k hk => hparam _ (.inr (by unfold sbBytes; omega))
  have hfs' : Fs.ofSuperblock sb = fs := (ofSuperblock_congr hparam).trans hfs.params
  have hcounts : Counts.ofSuperblock sb = v.counts := by
    have h12 : sb.get32 12 = (fs.superblock v.counts).get32 12 :=
      get32_congr fun k hk => hsb _ (by unfold sbBytes; omega)
    have h16 : sb.get32 16 = (fs.superblock v.counts).get32 16 :=
      get32_congr fun k hk => hsb _ (by unfold sbBytes; omega)
    unfold Counts.ofSuperblock
    rw [h12, h16]
    unfold Fs.superblock
    rw [get32_put32, get32_put32_of_ne (by decide), get32_put32]
  have hge := G.blockSize.ge
  have hmod : fs.blockSize % 512 = 0 :=
    Nat.mod_eq_zero_of_dvd (dvd_trans (by decide) G.blockSize.dvd)
  obtain ⟨c, hcache⟩ := Option.isSome_iff_exists.mp
    (show (bcacheCreate fs.blockSize EXT2_CACHE_BLOCKS).isSome = true from
      bcacheCreate_isSome (by omega) hmod (by decide) (by decide))
  obtain ⟨hwf, hbs, _, hempty⟩ := bcacheCreate_wf hcache
  have hmount : ext2Mount st dev = (true,
      { mounted := true, fs := fs, counts := v.counts, cache := some c,
        dev := { dev with nreads := dev.nreads + 1 } }) := by
    unfold ext2Mount
    simp only [hread, hsec, if_false, hmagic, ne_eq, not_true_eq_false, hfs', hcounts, hcache]
  rw [hmount]
  refine ⟨rfl, ⟨⟨dev.block fs.blockSize, v.counts⟩, ⟨rfl, rfl, rfl, ⟨c, rfl, hwf, hbs, ?_⟩, hr⟩, h⟩,
    sameOracle_read dev 2 2⟩
  have hcoh := coherent_of_empty (X := (· = sbBlk fs.blockSize))
    ⟨c, { dev with nreads := dev.nreads + 1 }⟩ hempty
  rw [hbs] at hcoh
  exact hcoh

theorem mount_shows (hw : dev.WritesOk) (st : Mount) :
    (ext2Mount st dev).1 = true ∧ Shows G (ext2Mount st dev).2 v := by
  obtain ⟨hmount, hs, horacle⟩ := mount_presents hfs h hsec hr st
  exact ⟨hmount, hs, horacle.writesOk hw⟩

end JuampiOs.Ext2
