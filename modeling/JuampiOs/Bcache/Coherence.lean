import JuampiOs.Bcache.Ops

/-!
# Coherence of the block cache

The cache stands for one array of blocks `A`: a resident slot holds the array's block, and
the device holds it wherever no dirty slot does (`Coherent`). Reading, read-ahead, eviction
and flushing all leave `A` alone; a write changes it at one block.

The array is compared outside a set `X` of blocks that are also written behind the cache's
back. No slot of `X` is ever dirty, so the cache never writes such a block, but a resident
copy of one may be stale. A cache that owns its whole device has an empty `X`.

An eviction drops the victim whether or not its write-back succeeded, so each rule that
evicts asks that no write command it issues fails (`Calm`).
-/

namespace JuampiOs

open Function List Buf
open Bcache

/-! ## Device blocks -/

namespace BlockDev

theorem block_addr_iff {bs i : Nat} (b b' : Nat) (hi : i < bs) :
    (b * bs ≤ b' * bs + i ∧ b' * bs + i < b * bs + bs) ↔ b' = b := by
  constructor
  · rintro ⟨h1, h2⟩
    have hle : b ≤ b' := by
      by_contra hlt
      have : (b' + 1) * bs ≤ b * bs := Nat.mul_le_mul_right bs (by omega)
      rw [add_mul, one_mul] at this
      omega
    have hge : b' ≤ b := by
      by_contra hlt
      have : (b + 1) * bs ≤ b' * bs := Nat.mul_le_mul_right bs (by omega)
      rw [add_mul, one_mul] at this
      omega
    omega
  · rintro rfl
    omega

variable {bs spb : Nat} (d : BlockDev) (hbs : bs = spb * 512)
include hbs

theorem write_block_self (b : Nat) (buf : Buf) (hf : d.writeFault d.nwrites = none) :
    (d.write (b * spb) spb buf).2.block bs b = take bs buf := by
  refine take_congr fun i hi => ?_
  have haddr : b * spb * 512 = b * bs := by rw [mul_assoc, hbs]
  have hin := (block_addr_iff b b hi).mpr rfl
  unfold write
  rw [hf]
  simp only [haddr, ← hbs, hin, and_self, if_true]
  rw [Nat.add_sub_cancel_left]

theorem write_block_of_ne {b b' : Nat} (h : b' ≠ b) (buf : Buf) :
    (d.write (b * spb) spb buf).2.block bs b' = d.block bs b' := by
  refine take_congr fun i hi => ?_
  apply write_disk_outside
  have haddr : b * spb * 512 = b * bs := by rw [mul_assoc, hbs]
  rw [haddr, ← hbs, block_addr_iff b b' hi]
  exact h

theorem read_block (b : Nat) (hr : d.readFault d.nreads = false) :
    (d.read (b * spb) spb).1 = some (d.block bs b) := by
  have haddr : b * spb * 512 = b * bs := by rw [mul_assoc, hbs]
  simp [read, hr, block, haddr, ← hbs]

theorem read_run_block (blk n : Nat) (hr : d.readFault d.nreads = false) {i : Nat} (hi : i < n) :
    ∃ buf, (d.read (blk * spb) (n * spb)).1 = some buf ∧
      take bs (fun j => buf (i * bs + j)) = d.block bs (blk + i) := by
  refine ⟨take (n * spb * 512) fun i => d.disk (blk * spb * 512 + i), by simp [read, hr],
    take_congr fun j hj => ?_⟩
  have hlt : i * bs + j < n * spb * 512 := by
    have : (i + 1) * bs ≤ n * bs := Nat.mul_le_mul_right bs hi
    rw [add_mul, one_mul] at this
    rw [mul_assoc, ← hbs]
    omega
  rw [take_of_lt _ hlt]
  have haddr : blk * spb * 512 + (i * bs + j) = (blk + i) * bs + j := by
    rw [mul_assoc, ← hbs, add_mul]
    omega
  rw [haddr]

end BlockDev

open BlockDev

namespace Cached

/-! ## The coupling -/

/-- The cache and its device stand for the array `A`, outside `X`. -/
structure Coherent (X : Nat → Prop) (A : Nat → Buf) (st : Cached) : Prop where
  hit : ∀ s, st.c.Resident s → ¬ X (st.c.slots s).blk →
    take st.c.blockSize (st.c.slots s).data = A (st.c.slots s).blk
  back : ∀ b, (∀ s, st.c.Resident s → (st.c.slots s).blk = b → (st.c.slots s).dirty = false) →
    st.dev.block st.c.blockSize b = A b
  sound : ∀ s, st.c.Resident s → (st.c.slots s).dirty = true → ¬ X (st.c.slots s).blk

variable {s : Nat} {st' : Cached}

variable {X : Nat → Prop} {A : Nat → Buf}

variable {st : Cached}

/-- `st'` differs from `st` in slot `s` at most, in what coherence reads: the residents, their
contents and the device bytes. -/
structure Beside (s : Nat) (st st' : Cached) : Prop where
  nslots : st'.c.nslots = st.c.nslots
  blockSize : st'.c.blockSize = st.c.blockSize
  slots : ∀ t, t ≠ s → st'.c.slots t = st.c.slots t
  disk : st'.dev.disk = st.dev.disk

namespace Beside

variable (B : Beside s st st') (h : Coherent X A st) {t : Nat}
include B

theorem resident (hts : t ≠ s) : st'.c.Resident t ↔ st.c.Resident t := by
  unfold Resident
  rw [B.nslots, B.slots t hts]

include h

theorem hit (hts : t ≠ s) (ht : st'.c.Resident t) (hX : ¬ X (st'.c.slots t).blk) :
    take st'.c.blockSize (st'.c.slots t).data = A (st'.c.slots t).blk := by
  rw [B.slots t hts] at hX ⊢
  rw [B.blockSize]
  exact h.hit t ((B.resident hts).mp ht) hX

theorem back {b : Nat}
    (hs : st.c.Resident s → (st.c.slots s).blk = b → (st.c.slots s).dirty = false)
    (hb : ∀ t, st'.c.Resident t → (st'.c.slots t).blk = b → (st'.c.slots t).dirty = false) :
    st'.dev.block st'.c.blockSize b = A b := by
  have hblock : st'.dev.block st'.c.blockSize b = st.dev.block st.c.blockSize b := by
    unfold block
    rw [B.disk, B.blockSize]
  rw [hblock]
  refine h.back b fun t ht hblk => ?_
  by_cases hts : t = s
  · subst hts
    exact hs ht hblk
  · have := hb t ((B.resident hts).mpr ht)
    rw [B.slots t hts] at this
    exact this hblk

theorem sound (hts : t ≠ s) (ht : st'.c.Resident t) (hd : (st'.c.slots t).dirty = true) :
    ¬ X (st'.c.slots t).blk := by
  rw [B.slots t hts] at hd ⊢
  exact h.sound t ((B.resident hts).mp ht) hd

/-- The slot was clean, and is clean now and holds the array's block if it is resident. -/
theorem coherent (hclean : st.c.Resident s → (st.c.slots s).dirty = false)
    (hnew : st'.c.Resident s → (st'.c.slots s).dirty = false ∧
      take st'.c.blockSize (st'.c.slots s).data = A (st'.c.slots s).blk) :
    Coherent X A st' := by
  refine ⟨fun t ht hX => ?_, fun b hb => B.back h (fun hs _ => hclean hs) hb, fun t ht hd => ?_⟩
  · by_cases hts : t = s
    · subst hts
      exact (hnew ht).2
    · exact B.hit h hts ht hX
  · by_cases hts : t = s
    · subst hts
      rw [(hnew ht).1] at hd
      cases hd
    · exact B.sound h hts ht hd

/-- Overwriting the block of a resident slot moves the array at that block. The slot's own
old contents and the device's old block do not matter. -/
theorem store {blk : Nat} {buf : Buf}
    (hfresh : ∀ t, t ≠ s → st.c.Resident t → (st.c.slots t).blk ≠ blk)
    (hold : st.c.Resident s → (st.c.slots s).blk = blk) (hX : ¬ X blk) (hs : st'.c.Resident s)
    (hblk : (st'.c.slots s).blk = blk) (hdirty : (st'.c.slots s).dirty = true)
    (hdata : take st.c.blockSize (st'.c.slots s).data = take st.c.blockSize buf) :
    Coherent X (update A blk (take st.c.blockSize buf)) st' := by
  refine ⟨fun t ht hXt => ?_, fun b hb => ?_, fun t ht hd => ?_⟩
  · by_cases hts : t = s
    · subst hts
      rw [hblk, update_self, B.blockSize]
      exact hdata
    · have hne := hfresh t hts ((B.resident hts).mp ht)
      rw [← B.slots t hts] at hne
      rw [update_of_ne hne]
      exact B.hit h hts ht hXt
  · by_cases hbb : b = blk
    · -- the slot holding `blk` is dirty, so nothing is claimed of this block
      subst hbb
      have := hb s hs hblk
      rw [hdirty] at this
      cases this
    · rw [update_of_ne hbb]
      exact B.back h (fun hs hb' => absurd (hb'.symm.trans (hold hs)) hbb) hb
  · by_cases hts : t = s
    · subst hts
      rw [hblk]
      exact hX
    · exact B.sound h hts ht hd

end Beside

theorem Coherent.congr (h : Coherent X A st)
    (hslots : st'.c.slots = st.c.slots) (hn : st'.c.nslots = st.c.nslots)
    (hbs : st'.c.blockSize = st.c.blockSize) (hdev : st'.dev.disk = st.dev.disk) :
    Coherent X A st' := by
  have B : Beside st.c.nslots st st' := ⟨hn, hbs, fun t _ => by rw [hslots], hdev⟩
  exact B.coherent h (fun hs => absurd hs.1 (lt_irrefl _))
    fun hs => absurd hs.1 (by rw [hn]; exact lt_irrefl _)

/-! ## Flushing -/

variable (hwf : st.c.Wf) (h : Coherent X A st)
include hwf h

/-- A flush keeps the cache coherent whether or not the write succeeds: the slot stays
dirty unless its block reached the device. -/
theorem flushSlot_coherent (hs : s < st.c.nslots) : Coherent X A (st.flushSlot s).2 := by
  by_cases hd : Dirty st.c s
  swap
  · rw [flushSlot_of_not_dirty hd]
    exact h
  have hsres : st.c.Resident s := ⟨hs, hd.1⟩
  have hk := flushSlot_keeps st s
  refine ⟨fun t ht hX => ?_, fun b hb => ?_, fun t ht hdt => ?_⟩
  · rw [hk.blk t] at hX
    rw [hk.data t, hk.blk t, hk.size.blockSize]
    exact h.hit t ((hk.resident t).mp ht) hX
  · by_cases hf : st.dev.writeFault st.dev.nwrites = none
    · rw [flushSlot_of_ok hd hf] at hb ⊢
      by_cases hbs : b = (st.c.slots s).blk
      · -- the block just written
        subst hbs
        show ((st.dev.write _ _ _).2).block st.c.blockSize _ = _
        rw [write_block_self st.dev hwf.blockSize_eq _ _ hf]
        exact h.hit s hsres (h.sound s hsres hd.2)
      show ((st.dev.write _ _ _).2).block st.c.blockSize _ = _
      rw [write_block_of_ne st.dev hwf.blockSize_eq hbs]
      refine h.back b fun t ht hblk => ?_
      have hts : t ≠ s := fun heq => hbs (heq ▸ hblk.symm)
      have := hb t ⟨ht.1, by simpa [countWriteback, hts] using ht.2⟩
      simp only [countWriteback, setSlot_of_ne _ hts] at this
      exact this hblk
    · rw [flushSlot_of_fault hd hf] at hb ⊢
      by_cases hbs : b = (st.c.slots s).blk
      · -- the slot is still dirty, so nothing is claimed of its block
        have := hb s hsres hbs.symm
        rw [hd.2] at this
        cases this
      · rw [write_block_of_ne st.dev hwf.blockSize_eq hbs]
        exact h.back b hb
  · rw [hk.blk t]
    by_cases hts : t = s
    · exact hts ▸ h.sound s hsres hd.2
    · rw [hk.other t hts] at hdt
      exact h.sound t ((hk.resident t).mp ht) hdt

omit hwf h in
theorem flushSlot_fst_iff (st : Cached) (s : Nat) :
    (st.flushSlot s).1 = true ↔ ¬ Dirty (st.flushSlot s).2.c s := by
  by_cases hd : Dirty st.c s
  · by_cases hf : st.dev.writeFault st.dev.nwrites = none
    · rw [flushSlot_of_ok hd hf]
      simp [Dirty, countWriteback]
    · rw [flushSlot_of_fault hd hf]
      simpa using hd
  · rw [flushSlot_of_not_dirty hd]
    simpa using hd

omit hwf h in
theorem flushSlot_clean (st : Cached) (s : Nat) (hcalm : Calm st.dev (st.flushSlot s).2.dev) :
    ¬ Dirty (st.flushSlot s).2.c s := by
  rw [← flushSlot_fst_iff]
  by_cases hd : Dirty st.c s
  swap
  · rw [flushSlot_of_not_dirty hd]
  have hf : st.dev.writeFault st.dev.nwrites = none := by
    -- a dirty slot costs one command, the next one of the oracle
    by_contra hf
    rw [flushSlot_of_fault hd hf] at hcalm
    exact hf (hcalm _ (by simp) (le_refl _))
  rw [flushSlot_of_ok hd hf]

omit hwf in
theorem coherent_touch (s : Nat) :
    Coherent X A { st with c := st.c.countHit.lruTouch s } := by
  have hsame := lruTouch_same st.c.countHit s
  exact h.congr hsame.slots hsame.nslots hsame.blockSize rfl

/-! ## Claiming and filling -/

theorem claim_coherent (blk : Nat)
    (hcalm : Calm st.dev (st.claim blk).2.dev) : Coherent X A (st.claim blk).2 := by
  have hlt := claim_fst_lt hwf blk
  obtain ⟨hsize, hother, hdev⟩ := claim_slots hwf blk
  have hk := flushSlot_keeps st (st.claim blk).1
  rw [hdev] at hcalm
  have hclean := flushSlot_clean st (st.claim blk).1 hcalm
  have B : Beside (st.claim blk).1 (st.flushSlot (st.claim blk).1).2 (st.claim blk).2 :=
    ⟨by rw [hsize.nslots, hk.size.nslots], by rw [hsize.blockSize, hk.size.blockSize],
      fun t ht => by rw [hother t ht, hk.other t ht], by rw [hdev]⟩
  refine B.coherent (flushSlot_coherent hwf h hlt) (fun hres => ?_) fun hres => ?_
  · by_contra hd
    exact hclean ⟨hres.2, by simpa using hd⟩
  · exact absurd rfl ((claim_resident hwf blk _).mp hres).2

/-- **A miss fetches the array's block.** -/
theorem fill_miss (hr : st.dev.ReadsOk)
    {blk : Nat} (hnone : st.c.lookup blk = none) (hcalm : Calm st.dev (st.fill blk).2.dev) :
    ∃ s, (st.fill blk).1 = some s ∧ Coherent X A (st.fill blk).2 ∧
      take (st.fill blk).2.c.blockSize ((st.fill blk).2.c.slots s).data = A blk := by
  set st0 : Cached := { st with c := st.c.countMiss } with hst0
  have hwf0 : st0.c.Wf := countMiss_wf hwf
  set s := (st0.claim blk).1 with hs
  set st1 := (st0.claim blk).2 with hst1
  have hcl : st1.c.Claimed s blk := claim_claimed hwf0 (countMiss_lookup hwf hnone)
  have hr1 : st1.dev.readFault st1.dev.nreads = false := (claim_oracle hwf0 blk).readsOk hr _
  have hread := read_block st1.dev hcl.blockSize_eq blk hr1
  set v : Slot := { st1.c.slots s with valid := true, data := st1.dev.block st1.c.blockSize blk }
    with hv
  have hfill : st.fill blk =
      (some s, { c := st1.c.setSlot s v, dev := (st1.dev.read (blk * st1.c.spb) st1.c.spb).2 }) := by
    unfold fill
    rw [hnone]
    simp only [← hst0, ← hs, ← hst1, devReadBlock, hread, hv]
  rw [hfill] at hcalm ⊢
  have hcoh1 : Coherent X A st1 := claim_coherent hwf0 (h.congr rfl rfl rfl rfl) blk hcalm
  -- no resident slot holds the block, so the device holds the array's version
  have hblock : st1.dev.block st1.c.blockSize blk = A blk :=
    hcoh1.back blk fun t ht hblk => absurd hblk (hcl.fresh t ht)
  have hvblk : v.blk = blk := hcl.blk_eq
  have hvclean : v.dirty = false := hcl.clean
  have htake : take st1.c.blockSize v.data = A blk := by
    rw [← hblock]
    exact take_take _ _
  have B : Beside s st1
      { c := st1.c.setSlot s v, dev := (st1.dev.read (blk * st1.c.spb) st1.c.spb).2 } :=
    ⟨rfl, rfl, fun t hts => setSlot_of_ne _ hts v, rfl⟩
  refine ⟨s, rfl, B.coherent hcoh1 (fun _ => hcl.clean) fun _ => ?_, ?_⟩
  · simp only [setSlot_self, hvblk, hvclean]
    exact ⟨trivial, htake⟩
  · simp only [setSlot_self]
    exact htake

omit hwf h in
/-- **Read-ahead keeps the array.** -/
theorem readaheadFrom_coherent (blk : Nat) :
    ∀ (fuel i : Nat) {st : Cached}, st.c.Wf → Coherent X A st → st.dev.ReadsOk →
      Calm st.dev (st.readaheadFrom blk fuel i).dev → Coherent X A (st.readaheadFrom blk fuel i)
  | 0, _, _, _, h, _, _ => h
  | fuel + 1, i, st, hwf, h, hr, hcalm => by
    unfold readaheadFrom at hcalm ⊢
    dsimp only at hcalm ⊢
    split
    · exact h
    rename_i hin
    rw [if_neg hin] at hcalm
    split
    · rename_i hlook
      rw [if_pos hlook] at hcalm
      exact readaheadFrom_coherent blk fuel (i + 1) hwf h hr hcalm
    rename_i hlook
    rw [if_neg hlook] at hcalm
    split
    · exact h
    rename_i hclean
    rw [if_neg hclean] at hcalm
    have hnone : st.c.lookup (u32 (blk + i)) = none := by simpa using hlook
    have hf := fill_follows hwf (u32 (blk + i))
    have hmiss := @fill_miss X A st hwf h hr _ hnone
    cases hfill : st.fill (u32 (blk + i)) with
    | mk r st' =>
      rw [hfill] at hf hcalm hmiss
      cases r with
      | none => exact (hmiss hcalm).elim fun _ hs => hs.2.1
      | some s =>
        have hra := readaheadFrom_follows blk fuel (i + 1) hf.wf
        obtain ⟨_, _, hcoh, _⟩ := hmiss (hcalm.left hra.oracle)
        exact readaheadFrom_coherent blk fuel (i + 1) hf.wf hcoh (hf.oracle.readsOk hr)
          (hcalm.right hf.oracle)

/-! ## The public operations -/

/-- **`bcache_read`** returns the array's block; outside the owned blocks it still returns
some block. -/
theorem bcacheRead_coherent (hr : st.dev.ReadsOk) (blk : Nat)
    (hcalm : Calm st.dev (st.bcacheRead blk).2.dev) :
    ∃ b, (st.bcacheRead blk).1 = some b ∧ (¬ X blk → b = A blk) ∧
      Coherent X A (st.bcacheRead blk).2 := by
  unfold bcacheRead at hcalm ⊢
  cases hl : st.c.lookup blk with
  | some s =>
    obtain ⟨hs, hblk⟩ := hwf.lookup_eq_some.mp hl
    refine ⟨_, rfl, fun hX => ?_, coherent_touch h s⟩
    rw [← hblk] at hX ⊢
    exact h.hit s hs hX
  | none =>
    rw [hl] at hcalm
    have hf := fill_follows hwf blk
    have hmiss := @fill_miss X A st hwf h hr _ hl
    cases hfill : st.fill blk with
    | mk r st' =>
      rw [hfill] at hf hcalm hmiss
      cases r with
      | none =>
        obtain ⟨s, hs, _⟩ := hmiss hcalm
        cases hs
      | some s =>
        have hra := readaheadFrom_follows blk READAHEAD 1 hf.wf
        obtain ⟨s', hs, hcoh, hdata⟩ := hmiss (hcalm.left hra.oracle)
        obtain rfl := Option.some.inj hs
        exact ⟨_, rfl, fun _ => hdata, readaheadFrom_coherent blk READAHEAD 1 hf.wf hcoh
          (hf.oracle.readsOk hr) (hcalm.right hf.oracle)⟩

/-- **`bcache_write`** changes the array at one block. -/
theorem bcacheWrite_coherent (blk : Nat)
    (hX : ¬ X blk) (buf : Buf) (hcalm : Calm st.dev (st.bcacheWrite blk buf).2.dev) :
    (st.bcacheWrite blk buf).1 = true ∧
      Coherent X (update A blk (take st.c.blockSize buf)) (st.bcacheWrite blk buf).2 := by
  cases hl : st.c.lookup blk with
  | some s =>
    obtain ⟨hs, hblk⟩ := hwf.lookup_eq_some.mp hl
    have hsame := lruTouch_same st.c s
    have B : Beside s st { st with c := (st.c.lruTouch s).store s buf } :=
      ⟨hsame.nslots, hsame.blockSize, fun t hts => by simp [Bcache.store, hts, hsame.slots], rfl⟩
    have hwr : st.bcacheWrite blk buf =
        (true, { st with c := (st.c.lruTouch s).store s buf }) := by
      unfold bcacheWrite
      rw [hl]
    rw [hwr]
    refine ⟨rfl, B.store h
      (fun t hts ht heq => hts (hwf.unique t s ht hs (heq.trans hblk.symm)))
      (fun _ => hblk) hX ⟨hsame.nslots ▸ hs.1, ?_⟩ ?_ ?_ ?_⟩
    · simp [Bcache.store, hsame.slots, hs.2]
    · simp [Bcache.store, hsame.slots, hblk]
    · simp [Bcache.store]
    · simp [Bcache.store, hsame.blockSize]
  | none =>
    set s := (st.claim blk).1 with hs
    set st1 := (st.claim blk).2 with hst1
    have hcl : st1.c.Claimed s blk := claim_claimed hwf hl
    set v : Slot := { st1.c.slots s with valid := true } with hv
    have B : Beside s st1 { st1 with c := (st1.c.setSlot s v).store s buf } :=
      ⟨rfl, rfl, fun t hts => by simp [Bcache.store, hts], rfl⟩
    have hwr : st.bcacheWrite blk buf =
        (true, { st1 with c := (st1.c.setSlot s v).store s buf }) := by
      unfold bcacheWrite
      rw [hl]
    rw [hwr] at hcalm ⊢
    have hcoh1 : Coherent X A st1 := claim_coherent hwf h blk hcalm
    rw [← (claim_slots hwf blk).1.blockSize]
    refine ⟨rfl, B.store hcoh1 (fun t _ => hcl.fresh t) (fun _ => hcl.blk_eq) hX ⟨hcl.lt, ?_⟩
      ?_ ?_ ?_⟩
    · simp [Bcache.store, hv]
    · simpa [Bcache.store, hv] using hcl.blk_eq
    · simp [Bcache.store]
    · simp only [Bcache.store, setSlot_self]
      exact take_take _ _

omit hwf h in
/-- **The slow path of `bcache_read_run`** delivers the array's blocks, counting on modulo
`2 ^ 32`. -/
theorem readRunSlow_coherent :
    ∀ (n blk : Nat) {st : Cached}, st.c.Wf → Coherent X A st → st.dev.ReadsOk →
      Calm st.dev (st.readRunSlow blk n).2.dev →
      ∃ l, (st.readRunSlow blk n).1 = (true, l) ∧ l.length = n ∧
        (∀ i, i < n → ¬ X (u32 (blk + i)) → l[i]? = some (A (u32 (blk + i)))) ∧
        Coherent X A (st.readRunSlow blk n).2
  | 0, blk, st, hwf, h, _, _ => by
    exact ⟨[], rfl, rfl, fun i hi => absurd hi (by omega), h⟩
  | n + 1, blk, st, hwf, h, hr, hcalm => by
    have hf := bcacheRead_follows hwf (u32 blk)
    have hone := bcacheRead_coherent hwf h hr (u32 blk)
    rw [readRunSlow] at hcalm ⊢
    cases hread : st.bcacheRead (u32 blk) with
    | mk r st' =>
      rw [hread] at hf hone hcalm
      cases r with
      | none =>
        obtain ⟨b, hb, _⟩ := hone hcalm
        cases hb
      | some b =>
        have hrest := readRunSlow_follows n (blk + 1) hf.wf
        obtain ⟨b', hb, hbA, hcoh⟩ := hone (hcalm.left hrest.oracle)
        obtain rfl := Option.some.inj hb
        obtain ⟨l, hl, hlen, hget, hcoh'⟩ := readRunSlow_coherent n (blk + 1) hf.wf hcoh
          (hf.oracle.readsOk hr) (hcalm.right hf.oracle)
        refine ⟨b :: l, by simp only [hl], by simp [hlen], fun i hi hX => ?_, hcoh'⟩
        cases i with
        | zero => simpa using hbA hX
        | succ j =>
          have hshift : blk + 1 + j = blk + (j + 1) := by omega
          have hj := hget j (by omega) (by rw [hshift]; exact hX)
          rw [hshift] at hj
          simpa using hj

/-- **`bcache_read_run` keeps the array**, on either path and for any range. -/
theorem bcacheReadRun_coherent (hr : st.dev.ReadsOk)
    (blk n : Nat) (hcalm : Calm st.dev (st.bcacheReadRun blk n).2.dev) :
    Coherent X A (st.bcacheReadRun blk n).2 := by
  unfold bcacheReadRun at hcalm ⊢
  split
  · exact h
  rename_i hn
  rw [if_neg hn] at hcalm
  split
  · rename_i hany
    rw [if_pos hany] at hcalm
    obtain ⟨_, _, _, _, hcoh⟩ := readRunSlow_coherent n blk hwf h hr hcalm
    exact hcoh
  -- a device read moves nothing but the oracle's position
  have hdev : Coherent X A
      { st with dev := (st.dev.read (blk * st.c.spb) (u32 (n * st.c.spb))).2 } :=
    h.congr rfl rfl rfl rfl
  split
  · rename_i heq
    rw [heq] at hdev
    exact hdev
  · rename_i heq
    rw [heq] at hdev
    exact hdev

/-- **`bcache_read_run` delivers the array's blocks** when the range does not wrap. -/
theorem bcacheReadRun_blocks (hr : st.dev.ReadsOk) {blk n : Nat} (hrange : blk + n ≤ 2 ^ 32)
    (hspan : n * st.c.spb < 2 ^ 32) (hcalm : Calm st.dev (st.bcacheReadRun blk n).2.dev)
    (hX : ∀ i, i < n → ¬ X (blk + i)) :
    (st.bcacheReadRun blk n).1 = (true, (List.range n).map fun i => A (blk + i)) := by
  unfold bcacheReadRun at hcalm ⊢
  by_cases hn : n = 0
  · subst hn
    rfl
  rw [if_neg hn] at hcalm ⊢
  by_cases hany : (List.range n).any (fun i => (st.c.lookup (u32 (blk + i))).isSome) = true
  · rw [if_pos hany] at hcalm ⊢
    obtain ⟨l, hl, hlen, hget, _⟩ := readRunSlow_coherent n blk hwf h hr hcalm
    rw [hl]
    congr 1
    apply ext_getElem?
    intro i
    by_cases hi : i < n
    · have hi' := hget i hi
      rw [u32_of_lt (by omega)] at hi'
      rw [hi' (hX i hi), getElem?_map, getElem?_range hi]
      rfl
    · rw [getElem?_eq_none (by omega), getElem?_eq_none (by simp; omega)]
  · rw [if_neg hany, u32_of_lt hspan]
    -- nothing in the range is resident, so the device holds all of it
    have hback : ∀ i, i < n → st.dev.block st.c.blockSize (blk + i) = A (blk + i) := by
      intro i hi
      refine h.back (blk + i) fun s hs hblk => absurd hany ?_
      have hfound := hwf.lookup_eq_some.mpr ⟨hs, hblk⟩
      simp only [any_eq_true, mem_range, not_not]
      exact ⟨i, hi, by rw [u32_of_lt (by omega), hfound]; rfl⟩
    have hfault := hr st.dev.nreads
    obtain ⟨buf, hbuf, _⟩ := read_run_block st.dev hwf.blockSize_eq blk n hfault (i := 0) (by omega)
    cases hread : st.dev.read (blk * st.c.spb) (n * st.c.spb) with
    | mk r dev =>
      rw [hread] at hbuf
      subst hbuf
      dsimp only
      congr 1
      apply map_congr_left
      intro i hi
      have hi := mem_range.mp hi
      obtain ⟨buf', hbuf', hblock⟩ := read_run_block st.dev hwf.blockSize_eq blk n hfault hi
      rw [hread] at hbuf'
      obtain rfl := Option.some.inj hbuf'
      rw [hblock, hback i hi]

omit hwf h in
theorem syncSlots_coherent :
    ∀ (l : List Nat) {st : Cached}, st.c.Wf → Coherent X A st → (∀ s ∈ l, s < st.c.nslots) →
      Coherent X A (st.syncSlots l).2 ∧ (∀ t, Dirty (st.syncSlots l).2.c t → Dirty st.c t) ∧
        ((st.syncSlots l).1 = true → ∀ s ∈ l, ¬ Dirty (st.syncSlots l).2.c s)
  | [], st, _, h, _ => ⟨h, fun _ ht => ht, fun _ s hs => absurd hs (by simp)⟩
  | s :: l, st, hwf, h, hlt => by
    have hk := flushSlot_keeps st s
    have hmono : ∀ t, Dirty (st.flushSlot s).2.c t → Dirty st.c t := by
      intro t ht
      by_cases hts : t = s
      · subst hts
        by_contra hd
        rw [flushSlot_of_not_dirty hd] at ht
        exact hd ht
      · unfold Dirty at ht ⊢
        rwa [hk.other t hts] at ht
    obtain ⟨h', hmono', htrue'⟩ := syncSlots_coherent l (hk.wf hwf)
      (flushSlot_coherent hwf h (hlt s mem_cons_self))
      (fun t ht => by rw [hk.size.nslots]; exact hlt t (mem_cons_of_mem s ht))
    refine ⟨h', fun t ht => hmono t (hmono' t ht), fun htrue t ht => ?_⟩
    simp only [syncSlots, Bool.and_eq_true] at htrue
    rcases mem_cons.mp ht with rfl | ht
    · -- a later flush does not make the slot dirty again
      exact fun hd => (flushSlot_fst_iff st t).mp htrue.1 (hmono' t hd)
    · exact htrue' htrue.2 t ht

/-- **`bcache_sync`** keeps the cache coherent whatever fails, and when it returns true the
device holds the whole array. -/
theorem bcacheSync_coherent :
    Coherent X A st.bcacheSync.2 ∧
      (st.bcacheSync.1 = true → ∀ b, st.bcacheSync.2.dev.block st.c.blockSize b = A b) := by
  obtain ⟨h', _, htrue⟩ := syncSlots_coherent (range st.c.nslots) hwf h
    (fun s hs => mem_range.mp hs)
  have hsize := (syncSlots_follows (range st.c.nslots) hwf).size
  refine ⟨h', fun hret b => ?_⟩
  have hback := h'.back b fun s hs _ => by
    by_contra hd
    have hlt : s < st.c.nslots := by rw [← hsize.nslots]; exact hs.1
    exact htrue hret s (mem_range.mpr hlt) ⟨hs.2, by simpa using hd⟩
  rw [hsize.blockSize] at hback
  exact hback

omit hwf h in
theorem syncSlots_fst : ∀ (l : List Nat) {st : Cached}, st.c.Wf →
    Calm st.dev (st.syncSlots l).2.dev → (st.syncSlots l).1 = true
  | [], _, _, _ => rfl
  | s :: l, st, hwf, hcalm => by
    have hf := flushSlot_follows hwf s
    have hfst := (flushSlot_fst_iff st s).mpr
      (flushSlot_clean st s (hcalm.left (syncSlots_follows l hf.wf).oracle))
    simp only [syncSlots, hfst, syncSlots_fst l hf.wf (hcalm.right hf.oracle), Bool.and_self]

/-- **`bcache_forget`** keeps the array, provided the write-back of a dirty block does not
fail. -/
theorem bcacheForget_coherent (blk : Nat)
    (hcalm : Calm st.dev (st.bcacheForget blk).dev) :
    Coherent X A (st.bcacheForget blk) := by
  cases hl : st.c.lookup blk with
  | none =>
    have hf : st.bcacheForget blk = st := by simp [bcacheForget, hl]
    rw [hf]
    exact h
  | some s =>
    obtain ⟨hs, _⟩ := hwf.lookup_eq_some.mp hl
    set st1 := (st.flushSlot s).2 with hst1
    set c2 := (st1.c.hashRemove s).setSlot s
      { (st1.c.hashRemove s).slots s with valid := false, dirty := false } with hc2
    have hf : st.bcacheForget blk = { st1 with c := (c2.lruUnlink s).lruPushBack s } := by
      simp only [bcacheForget, hl, ← hst1, ← hc2]
    have hsame := hashRemove_same st1.c s
    have hlru := (lruUnlink_same c2 s).trans (lruPushBack_same _ s)
    rw [hf] at hcalm ⊢
    have B : Beside s st1 { st1 with c := (c2.lruUnlink s).lruPushBack s } :=
      ⟨hlru.nslots.trans hsame.nslots, hlru.blockSize.trans hsame.blockSize,
        fun t hts => by rw [hlru.slots, hc2, setSlot_of_ne _ hts, hsame.slots], rfl⟩
    refine B.coherent (flushSlot_coherent hwf h hs.1) (fun hres => ?_) fun hres => ?_
    · by_contra hd
      exact flushSlot_clean st s hcalm ⟨hres.2, by simpa using hd⟩
    · have hvalid := hres.2
      rw [hlru.slots, hc2, setSlot_self] at hvalid
      cases hvalid

end Cached

end JuampiOs
