import JuampiOs.Bcache.Coherence
import JuampiOs.Ext2.Io

/-!
# The volume behind the cache

What the driver's block operations mean when no transfer of theirs fails: one array of blocks and the
two counters in memory (`Vol`). The block that holds the superblock is special: it is written
behind the cache's back, so reading it through the cache may deliver anything (`volSpec`).

`Couples` relates the mounted state to a volume, and `run_of_wp` carries what was proved of a
program over volumes to the program run through the cache and the device.
-/

namespace JuampiOs.Ext2

open Function Buf
open Cached BlockDev

/-- The blocks of a mounted file system and the superblock counters in memory. -/
structure Vol where
  blocks : Nat → Buf
  counts : Counts

/-- The block that holds the superblock, and where it starts there. -/
def sbBlk (bs : Nat) : Nat := 1024 / bs

def sbOff (bs : Nat) : Nat := 1024 % bs

/-- The 1 KiB that `fs_dev->read(2, 2, buf)` delivers. -/
def Vol.sbSectors (bs : Nat) (s : Vol) : Buf :=
  Buf.take 1024 fun i => s.blocks (sbBlk bs) (sbOff bs + i)

def Vol.setBlock (s : Vol) (b : Nat) (buf : Buf) : Vol :=
  { s with blocks := update s.blocks b buf }

/-- What each operation guarantees on a volume of `bs`-byte blocks. A program that stores to
the superblock's block through the cache, or whose run of blocks wraps, is given no
guarantee. -/
def volSpec (bs : Nat) : Lib.Prog.OpSpec Op Op.Ans Vol
  | .readBlock b, s, Q =>
    if b = sbBlk bs then ∀ buf, Q (some buf) s else Q (some (s.blocks b)) s
  | .writeBlock b buf, s, Q => b ≠ sbBlk bs ∧ Q true (s.setBlock b (Buf.take bs buf))
  | .readRun b n, s, Q =>
    b + n ≤ 2 ^ 32 ∧ n * (bs / 512) < 2 ^ 32 ∧ (∀ i, i < n → b + i ≠ sbBlk bs) ∧
      Q ((List.range n).map fun i => s.blocks (b + i)) s
  | .readSb, s, Q => Q (some (s.sbSectors bs)) s
  | .writeSb buf, s, Q =>
    Q true (s.setBlock (sbBlk bs) ((s.blocks (sbBlk bs)).blit (sbOff bs) 1024 buf))
  | .getCounts, s, Q => Q s.counts s
  | .setCounts c, s, Q => Q () { s with counts := c }

theorem volSpec_mono (bs : Nat) : (volSpec bs).Mono := by
  intro o s Q Q' hQ h
  cases o with
  | readBlock b =>
    simp only [volSpec] at h ⊢
    split
    · rename_i hb
      rw [if_pos hb] at h
      exact fun buf => hQ _ _ (h buf)
    · rename_i hb
      rw [if_neg hb] at h
      exact hQ _ _ h
  | writeBlock b buf => exact ⟨h.1, hQ _ _ h.2⟩
  | readRun b n => exact ⟨h.1, h.2.1, h.2.2.1, hQ _ _ h.2.2.2⟩
  | readSb | writeSb | getCounts | setCounts => exact hQ _ _ h

theorem volSpec_conj (bs : Nat) : (volSpec bs).Conj := by
  intro o s Q Q' h h'
  cases o with
  | readBlock b =>
    simp only [volSpec] at h h' ⊢
    split
    · rename_i hb
      rw [if_pos hb] at h h'
      exact fun buf => ⟨h buf, h' buf⟩
    · rename_i hb
      rw [if_neg hb] at h h'
      exact ⟨h, h'⟩
  | writeBlock b buf => exact ⟨h.1, h.2, h'.2⟩
  | readRun b n => exact ⟨h.1, h.2.1, h.2.2.1, h.2.2.2, h'.2.2.2⟩
  | readSb | writeSb | getCounts | setCounts => exact ⟨h, h'⟩

/-! ## Every run, on every device -/

/-- The cache, if there is one, is well formed. -/
def Mount.CacheWf (st : Mount) : Prop := ∀ c, st.cache = some c → c.Wf

theorem handle_follows {st : Mount} (h : st.CacheWf) (o : Op) :
    (st.handle o).2.CacheWf ∧ SameOracle st.dev (st.handle o).2.dev := by
  have hcached : ∀ {c : Bcache} {c' : Cached}, st.cache = some c → (c.Wf → Follows ⟨c, st.dev⟩ c') →
      (st.withCached c').CacheWf ∧ SameOracle st.dev (st.withCached c').dev := by
    intro c c' hc hf
    refine ⟨fun d hd => ?_, (hf (h c hc)).oracle⟩
    obtain rfl := Option.some.inj hd
    exact (hf (h c hc)).wf
  cases o with
  | readBlock b =>
    simp only [Mount.handle]
    split
    · rename_i c hc
      exact hcached hc fun hwf => bcacheRead_follows hwf b
    · exact ⟨h, sameOracle_read _ (b * (st.fs.blockSize / 512)) (st.fs.blockSize / 512)⟩
  | writeBlock b buf =>
    simp only [Mount.handle]
    split
    · rename_i c hc
      exact hcached hc fun hwf => bcacheWrite_follows hwf b buf
    · exact ⟨h, sameOracle_write ..⟩
  | readRun b n =>
    have hread := sameOracle_read st.dev (b * (st.fs.blockSize / 512))
      (u32 (n * (st.fs.blockSize / 512)))
    simp only [Mount.handle]
    split
    · rename_i c hc
      exact hcached hc fun hwf => bcacheReadRun_follows hwf b n
    split
    · rename_i heq
      rw [heq] at hread
      exact ⟨h, hread⟩
    · rename_i heq
      rw [heq] at hread
      exact ⟨h, hread⟩
  | readSb => exact ⟨h, sameOracle_read _ 2 2⟩
  | writeSb buf => exact ⟨h, sameOracle_write ..⟩
  | getCounts => exact ⟨h, .refl _⟩
  | setCounts c => exact ⟨h, .refl _⟩

/-- A run only moves the position of the device's oracle on. -/
theorem run_follows {α : Type} {st : Mount} (h : st.CacheWf) (p : Io α) :
    (st.run p).2.CacheWf ∧ SameOracle st.dev (st.run p).2.dev := by
  refine Lib.Prog.run_keeps (I := fun st' : Mount => st'.CacheWf ∧ SameOracle st.dev st'.dev)
    (fun o st' hst' => ?_) p ⟨h, .refl _⟩
  obtain ⟨hwf, horacle⟩ := handle_follows hst'.1 o
  exact ⟨hwf, hst'.2.trans horacle⟩

/-! ## The coupling -/

/-- The mounted state stands for the volume `s`: the cache is well formed and coherent with
its blocks, except that a resident copy of the superblock's block may be stale; and no read
fails. -/
structure Couples (fs : Fs) (st : Mount) (s : Vol) : Prop where
  mounted : st.mounted = true
  fs_eq : st.fs = fs
  counts : st.counts = s.counts
  cache : ∃ c, st.cache = some c ∧ c.Wf ∧ c.blockSize = fs.blockSize ∧
    Coherent (· = sbBlk fs.blockSize) s.blocks ⟨c, st.dev⟩
  reads : st.dev.ReadsOk

/-- A power of two from 1 KiB on: the superblock's two sectors lie in one block. -/
structure BlockSizeOk (bs : Nat) : Prop where
  pow : ∃ k, bs = 1024 * 2 ^ k

namespace BlockSizeOk

variable {bs : Nat}

theorem ge (h : BlockSizeOk bs) : 1024 ≤ bs := by
  obtain ⟨k, rfl⟩ := h.pow
  have := Nat.one_le_two_pow (n := k)
  omega

theorem dvd (h : BlockSizeOk bs) : 1024 ∣ bs := by
  obtain ⟨k, rfl⟩ := h.pow
  exact dvd_mul_right ..

theorem sb_le (h : BlockSizeOk bs) : sbOff bs + 1024 ≤ bs := by
  obtain ⟨k, rfl⟩ := h.pow
  unfold sbOff
  cases k with
  | zero => decide
  | succ k =>
    have : 1 ≤ 2 ^ k := Nat.one_le_two_pow
    rw [pow_succ, Nat.mod_eq_of_lt (by omega)]
    omega

theorem sb_addr (bs : Nat) : sbBlk bs * bs + sbOff bs = 1024 := by
  rw [mul_comm]
  exact Nat.div_add_mod 1024 bs

end BlockSizeOk

theorem write_sb_block {d : BlockDev} {bs : Nat} (hbs : BlockSizeOk bs) (buf : Buf)
    (hf : d.writeFault d.nwrites = none) :
    (d.write 2 2 buf).2.block bs =
      update (d.block bs) (sbBlk bs) ((d.block bs (sbBlk bs)).blit (sbOff bs) 1024 buf) := by
  have hle := hbs.sb_le
  have haddr := BlockSizeOk.sb_addr bs
  have hdisk : (d.write 2 2 buf).2.disk = fun a =>
      if 1024 ≤ a ∧ a < 2048 then buf (a - 1024) else d.disk a := by
    unfold BlockDev.write
    rw [hf]
  funext b i
  unfold BlockDev.block
  rw [hdisk]
  by_cases hi : i < bs
  swap
  · -- past the end of the block both sides are zero
    rw [take_of_ge _ (by omega)]
    by_cases hb : b = sbBlk bs
    · subst hb
      rw [update_self, blit_of_notMem (by omega), take_of_ge _ (by omega)]
    · rw [update_of_ne hb, take_of_ge _ (by omega)]
  rw [take_of_lt _ hi]
  beta_reduce
  by_cases hb : b = sbBlk bs
  · subst hb
    rw [update_self]
    by_cases hin : sbOff bs ≤ i ∧ i < sbOff bs + 1024
    · rw [blit_of_mem hin, if_pos (by omega), show sbBlk bs * bs + i - 1024 = i - sbOff bs by omega]
    · rw [blit_of_notMem hin, if_neg (by omega), take_of_lt _ hi]
  have hout : ¬ (1024 ≤ b * bs + i ∧ b * bs + i < 2048) := by
    intro hin
    apply hb
    have hmine := (block_addr_iff (sbBlk bs) b hi).mp
    exact hmine (by omega)
  rw [update_of_ne hb, if_neg hout, take_of_lt _ hi]

namespace Couples

variable {fs : Fs} {st : Mount} {s : Vol}

theorem cacheWf (h : Couples fs st s) : st.CacheWf := by
  intro c hc
  obtain ⟨d, hd, hwf, _⟩ := h.cache
  obtain rfl : d = c := Option.some.inj (hd.symm.trans hc)
  exact hwf

/-- The device holds the superblock's block: the cache never holds it dirty. -/
theorem block_sb (h : Couples fs st s) :
    st.dev.block fs.blockSize (sbBlk fs.blockSize) = s.blocks (sbBlk fs.blockSize) := by
  obtain ⟨c, _, _, hbs, hcoh⟩ := h.cache
  have hback := hcoh.back (sbBlk fs.blockSize) fun t ht hblk => by
    by_contra hd
    exact hcoh.sound t ht (by simpa using hd) hblk
  rwa [hbs] at hback

theorem withCached (h : Couples fs st s) {c : Bcache} (hc : st.cache = some c) {c' : Cached}
    {blocks : Nat → Buf} (hf : Follows ⟨c, st.dev⟩ c')
    (hcoh : Coherent (· = sbBlk fs.blockSize) blocks c') :
    Couples fs (st.withCached c') { s with blocks := blocks } := by
  obtain ⟨d, hd, _, hbs, _⟩ := h.cache
  obtain rfl : d = c := Option.some.inj (hd.symm.trans hc)
  refine ⟨h.mounted, h.fs_eq, h.counts, ⟨c'.c, rfl, hf.wf, hf.size.blockSize.trans hbs, hcoh⟩,
    hf.oracle.readsOk h.reads⟩

/-- **The cache and the device answer every operation as specified**, if no write command of
theirs fails. -/
theorem handle (hbs : BlockSizeOk fs.blockSize) (h : Couples fs st s) (o : Op)
    {Q : o.Ans → Vol → Prop} (hcalm : Calm st.dev (Mount.handle o st).2.dev)
    (hspec : volSpec fs.blockSize o s Q) :
    ∃ s', Couples fs (Mount.handle o st).2 s' ∧ Q (Mount.handle o st).1 s' := by
  obtain ⟨c, hc, hwf, hcbs, hcoh⟩ := h.cache
  have hspb : c.spb = fs.blockSize / 512 := by
    have := hwf.blockSize_eq
    omega
  cases o with
  | readBlock b =>
    simp only [Mount.handle, hc] at hcalm
    obtain ⟨r, hr, hrA, hcoh'⟩ := bcacheRead_coherent hwf hcoh h.reads b hcalm
    have hans : Mount.handle (.readBlock b) st =
        (some r, st.withCached (Cached.bcacheRead ⟨c, st.dev⟩ b).2) := by
      simp only [Mount.handle, hc, hr]
    rw [hans]
    refine ⟨s, h.withCached hc (bcacheRead_follows hwf b) hcoh', ?_⟩
    simp only [volSpec] at hspec
    by_cases hb : b = sbBlk fs.blockSize
    · rw [if_pos hb] at hspec
      exact hspec r
    · rw [if_neg hb] at hspec
      rw [hrA hb]
      exact hspec
  | writeBlock b buf =>
    obtain ⟨hb, hQ⟩ := hspec
    simp only [Mount.handle, hc] at hcalm
    obtain ⟨hret, hcoh'⟩ := bcacheWrite_coherent hwf hcoh b hb buf hcalm
    have hans : Mount.handle (.writeBlock b buf) st =
        (true, st.withCached (Cached.bcacheWrite ⟨c, st.dev⟩ b buf).2) := by
      simp only [Mount.handle, hc, hret]
    rw [hans]
    rw [hcbs] at hcoh'
    exact ⟨_, h.withCached hc (bcacheWrite_follows hwf b buf) hcoh', hQ⟩
  | readRun b n =>
    obtain ⟨hrange, hspan, hX, hQ⟩ := hspec
    simp only [Mount.handle, hc] at hcalm
    have hcoh' := bcacheReadRun_coherent hwf hcoh h.reads b n hcalm
    have hl := bcacheReadRun_blocks hwf hcoh h.reads hrange (by rw [hspb]; exact hspan) hcalm hX
    have hans : Mount.handle (.readRun b n) st = ((List.range n).map fun i => s.blocks (b + i),
        st.withCached (Cached.bcacheReadRun ⟨c, st.dev⟩ b n).2) := by
      simp only [Mount.handle, hc, hl]
    rw [hans]
    exact ⟨s, h.withCached hc (bcacheReadRun_follows hwf b n) hcoh', hQ⟩
  | readSb =>
    have hread : st.dev.read 2 2 = (some (s.sbSectors fs.blockSize),
        { st.dev with nreads := st.dev.nreads + 1 }) := by
      have hle := hbs.sb_le
      have haddr := BlockSizeOk.sb_addr fs.blockSize
      unfold BlockDev.read
      rw [h.reads, if_neg (by decide)]
      congr 2
      refine take_congr fun i hi => ?_
      rw [← h.block_sb, BlockDev.block, take_of_lt _ (by omega)]
      congr 1
      omega
    have hans : Mount.handle .readSb st = (some (s.sbSectors fs.blockSize),
        { st with dev := { st.dev with nreads := st.dev.nreads + 1 } }) := by
      simp only [Mount.handle, hread]
    rw [hans]
    exact ⟨s, ⟨h.mounted, h.fs_eq, h.counts, ⟨c, hc, hwf, hcbs, hcoh.congr rfl rfl rfl rfl⟩,
      h.reads⟩, hspec⟩
  | writeSb buf =>
    have hnone : st.dev.writeFault st.dev.nwrites = none := by
      refine hcalm _ ?_ (le_refl _)
      show st.dev.nwrites < (st.dev.write 2 2 buf).2.nwrites
      rw [write_snd_nwrites]
      exact Nat.lt_succ_self _
    have hblock := write_sb_block (d := st.dev) hbs buf hnone
    have hret : (st.dev.write 2 2 buf).1 = true := by
      rw [BlockDev.write_fst, hnone]
      rfl
    have hans : Mount.handle (.writeSb buf) st =
        (true, { st with dev := (st.dev.write 2 2 buf).2 }) := by
      simp only [Mount.handle, hret]
    rw [hans]
    refine ⟨s.setBlock (sbBlk fs.blockSize) _, ⟨h.mounted, h.fs_eq, h.counts,
      ⟨c, hc, hwf, hcbs, ?_⟩, (sameOracle_write ..).readsOk h.reads⟩, hspec⟩
    refine ⟨fun t ht hX => ?_, fun b hb => ?_, fun t ht hd => hcoh.sound t ht hd⟩
    · show _ = update s.blocks _ _ _
      rw [update_of_ne hX]
      exact hcoh.hit t ht hX
    · show (st.dev.write 2 2 buf).2.block c.blockSize b = update s.blocks _ _ _
      rw [hcbs, hblock]
      by_cases hbsb : b = sbBlk fs.blockSize
      · subst hbsb
        rw [update_self, update_self, h.block_sb]
      · rw [update_of_ne hbsb, update_of_ne hbsb, ← hcbs]
        exact hcoh.back b hb
  | getCounts =>
    refine ⟨s, h, ?_⟩
    show Q st.counts s
    rw [h.counts]
    exact hspec
  | setCounts cnt =>
    exact ⟨{ s with counts := cnt }, ⟨h.mounted, h.fs_eq, rfl, ⟨c, hc, hwf, hcbs, hcoh⟩, h.reads⟩,
      hspec⟩

/-- **Through the cache and the device, every program does what it does on the volume**, if no
write command that it issues fails. -/
theorem run_of_wp {α : Type} (hbs : BlockSizeOk fs.blockSize) (h : Couples fs st s) (p : Io α)
    {Q : α → Vol → Prop} (hcalm : Calm st.dev (st.run p).2.dev)
    (hwp : p.wp (volSpec fs.blockSize) s Q) :
    ∃ s', Couples fs (st.run p).2 s' ∧ Q (st.run p).1 s' := by
  refine Lib.Prog.run_of_wp (R := Couples fs) (C := fun st st' => Calm st.dev st'.dev)
    (fun o st _ p hR hcalm => ?_) (fun o _ _ _ hR hcalm hspec => hR.handle hbs o hcalm hspec)
    p h hcalm hwp
  -- the operation and the rest of the run each issue a part of the commands
  obtain ⟨hwf, horacle⟩ := handle_follows hR.cacheWf o
  exact ⟨hcalm.left (run_follows hwf p).2, hcalm.right horacle⟩

end Couples

end JuampiOs.Ext2
