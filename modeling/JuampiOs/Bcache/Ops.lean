import JuampiOs.Bcache.Repr

/-!
# Cache operations on the representation

What `flush_slot`, `claim` and `fill` do to the slots and to the pointer structures, for
every outcome of the device. `claim` is described once (`claim_claimed`, `claim_slots`,
`claim_dev`); the rest of the development never unfolds it. The invariant of the
representation is kept by every public operation on any device (`Follows`).
-/

namespace JuampiOs

open Bcache

namespace BlockDev

/-- The failure oracle and the size of a device, which no command changes; commands only move
the oracle's position on. -/
structure SameOracle (d d' : BlockDev) : Prop where
  nsectors : d'.nsectors = d.nsectors
  readFault : d'.readFault = d.readFault
  writeFault : d'.writeFault = d.writeFault
  nwrites : d.nwrites ≤ d'.nwrites

theorem SameOracle.refl (d : BlockDev) : SameOracle d d := ⟨rfl, rfl, rfl, le_refl _⟩

theorem SameOracle.trans {d d' d'' : BlockDev} (h : SameOracle d d') (h' : SameOracle d' d'') :
    SameOracle d d'' :=
  ⟨h'.1.trans h.1, h'.2.trans h.2, h'.3.trans h.3, h.4.trans h'.4⟩

theorem SameOracle.readsOk {d d' : BlockDev} (h : SameOracle d d') (hr : d.ReadsOk) :
    d'.ReadsOk := by
  unfold ReadsOk
  rw [h.readFault]
  exact hr

theorem SameOracle.writesOk {d d' : BlockDev} (h : SameOracle d d') (hw : d.WritesOk) :
    d'.WritesOk := fun k hk => by
  rw [h.writeFault]
  exact hw k (h.nwrites.trans hk)

theorem WritesOk.calm {d : BlockDev} (hw : d.WritesOk) (d' : BlockDev) : Calm d d' :=
  fun k _ hk => hw k hk

/-- The first part of a run without failing writes. -/
theorem Calm.left {d d' d'' : BlockDev} (h : Calm d d'') (h' : SameOracle d' d'') : Calm d d' :=
  fun k hk => h k (hk.trans_le h'.nwrites)

/-- The rest of a run without failing writes. -/
theorem Calm.right {d d' d'' : BlockDev} (h : Calm d d'') (h' : SameOracle d d') : Calm d' d'' := by
  intro k hk hle
  rw [h'.writeFault]
  exact h k hk (h'.nwrites.trans hle)

theorem sameOracle_write (d : BlockDev) (lba count : Nat) (buf : Buf) :
    SameOracle d (d.write lba count buf).2 :=
  ⟨write_snd_nsectors .., write_snd_readFault .., write_snd_writeFault .., by
    rw [write_snd_nwrites]
    exact Nat.le_succ _⟩

theorem sameOracle_read (d : BlockDev) (lba count : Nat) : SameOracle d (d.read lba count).2 :=
  ⟨rfl, rfl, rfl, le_refl _⟩

end BlockDev

open BlockDev

namespace Cached

/-- The sizes of a cache, which no operation changes. -/
structure SameSize (c c' : Bcache) : Prop where
  blockSize : c'.blockSize = c.blockSize
  spb : c'.spb = c.spb
  nslots : c'.nslots = c.nslots

theorem SameSize.refl (c : Bcache) : SameSize c c := ⟨rfl, rfl, rfl⟩

variable {c : Bcache} {s : Nat}

theorem SameSize.trans {c' c'' : Bcache} (h : SameSize c c') (h' : SameSize c' c'') :
    SameSize c c'' :=
  ⟨h'.1.trans h.1, h'.2.trans h.2, h'.3.trans h.3⟩

theorem SameSize.of_lru {c' : Bcache} (h : SameButLru c c') : SameSize c c' :=
  ⟨h.blockSize, h.spb, h.nslots⟩

theorem SameSize.of_hash {c' : Bcache} (h : SameButHash c c') : SameSize c c' :=
  ⟨h.blockSize, h.spb, h.nslots⟩

theorem SameSize.setSlot (c : Bcache) (s : Nat) (v : Slot) : SameSize c (c.setSlot s v) :=
  ⟨rfl, rfl, rfl⟩

/-- What every operation keeps, whether or not the device does what it is asked to. -/
structure Follows (st st' : Cached) : Prop where
  wf : st'.c.Wf
  size : SameSize st.c st'.c
  oracle : SameOracle st.dev st'.dev

theorem Follows.refl {st : Cached} (h : st.c.Wf) : Follows st st := ⟨h, .refl _, .refl _⟩

theorem Follows.trans {st st' st'' : Cached} (h : Follows st st') (h' : Follows st' st'') :
    Follows st st'' :=
  ⟨h'.wf, h.size.trans h'.size, h.oracle.trans h'.oracle⟩

/-! ## Flushing -/

/-- A slot with something to write back. -/
def Dirty (c : Bcache) (s : Nat) : Prop := (c.slots s).valid = true ∧ (c.slots s).dirty = true

instance (c : Bcache) (s : Nat) : Decidable (Dirty c s) := by unfold Dirty; infer_instance

variable {st : Cached}

theorem flushSlot_of_not_dirty (h : ¬ Dirty st.c s) : st.flushSlot s = (true, st) := by
  unfold flushSlot
  have hcond : (!(st.c.slots s).valid || !(st.c.slots s).dirty) = true := by
    unfold Dirty at h
    cases hv : (st.c.slots s).valid <;> cases hd : (st.c.slots s).dirty <;> simp_all
  simp [hcond]

theorem flushSlot_of_fault (h : Dirty st.c s) (hf : st.dev.writeFault st.dev.nwrites ≠ none) :
    st.flushSlot s = (false, { st with
      dev := (st.dev.write ((st.c.slots s).blk * st.c.spb) st.c.spb (st.c.slots s).data).2 }) := by
  have hfst := st.dev.write_fst ((st.c.slots s).blk * st.c.spb) st.c.spb (st.c.slots s).data
  have hfalse : (st.dev.writeFault st.dev.nwrites).isNone = false := by
    cases hw : st.dev.writeFault st.dev.nwrites with
    | none => exact absurd hw hf
    | some torn => rfl
  rw [hfalse] at hfst
  simp [flushSlot, h.1, h.2, devWriteBlock, hfst]

theorem flushSlot_of_ok (h : Dirty st.c s) (hf : st.dev.writeFault st.dev.nwrites = none) :
    st.flushSlot s = (true, {
      c := (st.c.setSlot s { st.c.slots s with dirty := false }).countWriteback
      dev := (st.dev.write ((st.c.slots s).blk * st.c.spb) st.c.spb (st.c.slots s).data).2 }) := by
  have hfst := st.dev.write_fst ((st.c.slots s).blk * st.c.spb) st.c.spb (st.c.slots s).data
  rw [hf] at hfst
  simp [flushSlot, h.1, h.2, devWriteBlock, hfst]

/-- Whatever its outcome, a flush keeps the invariant, the sizes and every slot but for the
dirty bit of `s`. -/
structure FlushKeeps (c c' : Bcache) (s : Nat) : Prop where
  wf : c.Wf → c'.Wf
  size : SameSize c c'
  other : ∀ t, t ≠ s → c'.slots t = c.slots t
  self : c'.slots s = { c.slots s with dirty := (c'.slots s).dirty }

theorem flushSlot_keeps (st : Cached) (s : Nat) : FlushKeeps st.c (st.flushSlot s).2.c s := by
  by_cases hd : Dirty st.c s
  · by_cases hf : st.dev.writeFault st.dev.nwrites = none
    · rw [flushSlot_of_ok hd hf]
      refine ⟨fun h => ?_, ⟨rfl, rfl, rfl⟩, fun t ht => ?_, ?_⟩
      · exact Wf.withStats (h.setSlot (v := { st.c.slots s with dirty := false }) rfl rfl) _
      · exact setSlot_of_ne _ ht _
      · simp [countWriteback]
    · rw [flushSlot_of_fault hd hf]
      exact ⟨id, SameSize.refl _, fun _ _ => rfl, rfl⟩
  · rw [flushSlot_of_not_dirty hd]
    exact ⟨id, SameSize.refl _, fun _ _ => rfl, rfl⟩

theorem flushSlot_oracle (st : Cached) (s : Nat) : SameOracle st.dev (st.flushSlot s).2.dev := by
  by_cases hd : Dirty st.c s
  · by_cases hf : st.dev.writeFault st.dev.nwrites = none
    · rw [flushSlot_of_ok hd hf]
      exact sameOracle_write ..
    · rw [flushSlot_of_fault hd hf]
      exact sameOracle_write ..
  · rw [flushSlot_of_not_dirty hd]
    exact SameOracle.refl _

theorem flushSlot_follows (h : st.c.Wf) (s : Nat) : Follows st (st.flushSlot s).2 :=
  ⟨(flushSlot_keeps st s).wf h, (flushSlot_keeps st s).size, flushSlot_oracle st s⟩

namespace FlushKeeps

variable {c c' : Bcache} {s : Nat}
variable (h : FlushKeeps c c' s)
include h

theorem blk (t : Nat) : (c'.slots t).blk = (c.slots t).blk := by
  by_cases ht : t = s
  · subst ht
    rw [h.self]
  · rw [h.other t ht]

theorem valid (t : Nat) : (c'.slots t).valid = (c.slots t).valid := by
  by_cases ht : t = s
  · subst ht
    rw [h.self]
  · rw [h.other t ht]

theorem data (t : Nat) : (c'.slots t).data = (c.slots t).data := by
  by_cases ht : t = s
  · subst ht
    rw [h.self]
  · rw [h.other t ht]

theorem resident (t : Nat) : c'.Resident t ↔ c.Resident t := by
  unfold Resident
  rw [h.size.nslots, h.valid t]

end FlushKeeps

/-! ## Claiming a slot -/

/-- What an eviction leaves: the victim is out of the chains, everything else stays. -/
structure Evicted (st st' : Cached) (s : Nat) : Prop where
  size : SameSize st.c st'.c
  lru : st'.c.LruOk
  hash : st'.c.Hashed fun t => st.c.Resident t ∧ t ≠ s
  other : ∀ t, t ≠ s → st'.c.slots t = st.c.slots t
  dev : st'.dev = (st.flushSlot s).2.dev

theorem evict_evicted (h : st.c.Wf) (hs : s < st.c.nslots) : Evicted st (st.evict s) s := by
  by_cases hv : (st.c.slots s).valid = true
  · have hk := flushSlot_keeps st s
    have hwf := hk.wf h
    have hsame := hashRemove_same (st.flushSlot s).2.c s
    have hrem := hwf.hash.remove (s := s) (fun t ht => ht.1) ((hk.resident s).mpr ⟨hs, hv⟩)
    rw [evict, if_pos hv]
    refine ⟨?_, ?_, ?_, fun t ht => ?_, rfl⟩
    · exact hk.size.trans ⟨hsame.blockSize, hsame.spb, hsame.nslots⟩
    · exact hwf.lru.of_same hsame.lruPrev hsame.lruNext hsame.lruHead hsame.lruTail hsame.nslots
    · refine hrem.congr rfl rfl rfl (fun t => ?_) fun _ _ => rfl
      rw [hk.resident t]
    · show ((st.flushSlot s).2.c.hashRemove s).slots t = st.c.slots t
      rw [hsame.slots, hk.other t ht]
  · rw [evict, if_neg hv]
    refine ⟨SameSize.refl _, h.lru, ?_, fun _ _ => rfl, ?_⟩
    · refine h.hash.congr rfl rfl rfl (fun t => ?_) fun _ _ => rfl
      constructor
      · exact fun ht => ht.1
      · intro ht
        refine ⟨ht, ?_⟩
        rintro rfl
        exact hv ht.2
    · rw [flushSlot_of_not_dirty fun hd => hv hd.1]

theorem claim_fst (st : Cached) (blk : Nat) : (st.claim blk).1 = st.c.lruTail.getD 0 := rfl

theorem claim_fst_lt (h : st.c.Wf) (blk : Nat) : (st.claim blk).1 < st.c.nslots := by
  obtain ⟨s, htail, hs⟩ := h.lru.tail_lt h.pos
  rw [claim_fst, htail]
  exact hs

theorem claim_slots (h : st.c.Wf) (blk : Nat) :
    SameSize st.c (st.claim blk).2.c ∧
      (∀ t, t ≠ (st.claim blk).1 → (st.claim blk).2.c.slots t = st.c.slots t) ∧
      (st.claim blk).2.dev = (st.flushSlot (st.claim blk).1).2.dev := by
  have hev := evict_evicted h (claim_fst_lt h blk)
  rw [claim_fst] at hev ⊢
  refine ⟨?_, fun t ht => ?_, hev.dev⟩
  · exact (hev.size.trans (SameSize.setSlot _ _ _)).trans
      ((SameSize.of_hash (hashInsert_same _ _)).trans (SameSize.of_lru (lruTouch_same _ _)))
  · unfold claim
    rw [(lruTouch_same _ _).slots, (hashInsert_same _ _).slots, setSlot_of_ne _ ht]
    exact hev.other t ht

theorem claim_self (st : Cached) (blk : Nat) :
    ((st.claim blk).2.c.slots (st.claim blk).1).valid = false ∧
      ((st.claim blk).2.c.slots (st.claim blk).1).dirty = false ∧
      ((st.claim blk).2.c.slots (st.claim blk).1).blk = blk := by
  rw [claim_fst]
  unfold claim
  rw [(lruTouch_same _ _).slots, (hashInsert_same _ _).slots, setSlot_self]
  exact ⟨rfl, rfl, rfl⟩

theorem claim_resident (h : st.c.Wf) (blk t : Nat) :
    (st.claim blk).2.c.Resident t ↔ st.c.Resident t ∧ t ≠ (st.claim blk).1 := by
  obtain ⟨hsize, hother, _⟩ := claim_slots h blk
  unfold Resident
  by_cases ht : t = (st.claim blk).1
  · rw [ht, (claim_self st blk).1]
    simp
  · rw [hsize.nslots, hother t ht]
    simp [ht]

/-- **`claim` hands out a slot** hashed for `blk`, at the front and not yet valid. -/
theorem claim_claimed (h : st.c.Wf) {blk : Nat} (hnone : st.c.lookup blk = none) :
    (st.claim blk).2.c.Claimed (st.claim blk).1 blk := by
  have hlt := claim_fst_lt h blk
  obtain ⟨hsize, hother, _⟩ := claim_slots h blk
  obtain ⟨hvalid, hclean, hblk⟩ := claim_self st blk
  have hev := evict_evicted h hlt
  have hres := claim_resident h blk
  refine ⟨?_, ?_, ?_, ?_, ?_, ?_, hvalid, hclean, hblk, ?_⟩
  · rw [hsize.spb]
    exact h.spb_pos
  · rw [hsize.blockSize, hsize.spb]
    exact h.blockSize_eq
  · apply LruOk.touch
    · exact hev.lru.of_same rfl rfl rfl rfl rfl
    · show (st.claim blk).1 < (st.evict (st.claim blk).1).c.nslots
      rw [hev.size.nslots]
      exact hlt
  · -- the victim left the chains and is inserted again for `blk`
    have hset : (((st.evict (st.claim blk).1).c.setSlot (st.claim blk).1
        { (st.evict (st.claim blk).1).c.slots (st.claim blk).1 with
          valid := false, dirty := false, blk := blk })).Hashed
        (fun t => st.c.Resident t ∧ t ≠ (st.claim blk).1) :=
      hev.hash.congr rfl rfl rfl (fun _ => Iff.rfl) (fun t ht => by rw [setSlot_of_ne _ ht.2])
    have hins := hset.insert (s := (st.claim blk).1) (fun hn => hn.2 rfl)
    refine hins.congr (lruTouch_same _ _).hashNext (lruTouch_same _ _).buckets
      (lruTouch_same _ _).nbuckets (fun t => by rw [hres t]) (fun t _ => ?_)
    unfold claim
    rw [(lruTouch_same _ _).slots]
  · intro t u ht hu heq
    obtain ⟨ht, hts⟩ := (hres t).mp ht
    obtain ⟨hu, hus⟩ := (hres u).mp hu
    rw [hother t hts, hother u hus] at heq
    exact h.unique t u ht hu heq
  · rw [hsize.nslots]
    exact hlt
  · intro t ht
    obtain ⟨ht, hts⟩ := (hres t).mp ht
    rw [hother t hts]
    exact h.lookup_eq_none.mp hnone t ht

/-! ## The public operations

They keep the invariant whether or not the device does what it is asked to. -/

theorem countHit_wf (h : c.Wf) : c.countHit.Wf := h.withStats _

theorem countMiss_wf (h : c.Wf) : c.countMiss.Wf := h.withStats _

theorem touch_follows (h : st.c.Wf) (hs : s < st.c.nslots) :
    Follows st { st with c := st.c.countHit.lruTouch s } :=
  have hsame := lruTouch_same st.c.countHit s
  ⟨(countHit_wf h).touch hs, ⟨hsame.1, hsame.2, hsame.3⟩, .refl _⟩

theorem claim_oracle (h : st.c.Wf) (blk : Nat) : SameOracle st.dev (st.claim blk).2.dev := by
  rw [(claim_slots h blk).2.2]
  exact flushSlot_oracle st _

theorem countMiss_lookup (h : c.Wf) {blk : Nat} (hnone : c.lookup blk = none) :
    c.countMiss.lookup blk = none := by
  rw [(countMiss_wf h).lookup_eq_none]
  exact h.lookup_eq_none.mp hnone

theorem fill_follows (h : st.c.Wf) (blk : Nat) : Follows st (st.fill blk).2 := by
  unfold fill
  split
  · rename_i s hl
    exact touch_follows h (h.lookup_eq_some.mp hl).1.1
  rename_i hl
  have hmiss : Follows st { st with c := st.c.countMiss } :=
    ⟨countMiss_wf h, ⟨rfl, rfl, rfl⟩, .refl _⟩
  have hcl := claim_claimed hmiss.wf (countMiss_lookup h hl)
  have hsize := hmiss.size.trans (claim_slots hmiss.wf blk).1
  have horacle := hmiss.oracle.trans (claim_oracle hmiss.wf blk)
  generalize Cached.claim _ blk = r at hcl hsize horacle ⊢
  obtain ⟨s, st1⟩ := r
  dsimp only [devReadBlock] at hcl hsize horacle ⊢
  have horacle := horacle.trans (sameOracle_read st1.dev (blk * st1.c.spb) st1.c.spb)
  split
  · -- the read has failed, and the slot leaves its chain again
    rename_i st2 hread
    obtain rfl := (Prod.mk.inj hread).2
    have hsame := hashRemove_same st1.c s
    refine ⟨?_, hsize.trans (.trans (.of_hash hsame) (.setSlot _ _ _)), horacle⟩
    apply Wf.of_hashRemove hcl.spb_pos hcl.blockSize_eq hcl.lru hcl.hash hcl.unique hcl.lt
    rw [hsame.slots]
    exact hcl.invalid
  · rename_i buf st2 hread
    obtain rfl := (Prod.mk.inj hread).2
    exact ⟨hcl.fill hcl.blk_eq rfl, hsize.trans (.setSlot _ _ _), horacle⟩

theorem readaheadFrom_follows (blk fuel i : Nat) (h : st.c.Wf) :
    Follows st (st.readaheadFrom blk fuel i) := by
  induction fuel generalizing i st with
  | zero => exact .refl h
  | succ fuel ih =>
    unfold readaheadFrom
    dsimp only
    split
    · exact .refl h
    split
    · exact ih (i + 1) h
    split
    · exact .refl h
    have hfill := fill_follows h (u32 (blk + i))
    split
    · rename_i st' heq
      rw [heq] at hfill
      exact hfill
    · rename_i s st' heq
      rw [heq] at hfill
      exact hfill.trans (ih (i + 1) hfill.wf)

theorem bcacheRead_follows (h : st.c.Wf) (blk : Nat) : Follows st (st.bcacheRead blk).2 := by
  unfold bcacheRead
  split
  · rename_i s hl
    exact touch_follows h (h.lookup_eq_some.mp hl).1.1
  have hfill := fill_follows h blk
  split
  · rename_i st' heq
    rw [heq] at hfill
    exact hfill
  · rename_i s st' heq
    rw [heq] at hfill
    exact hfill.trans (readaheadFrom_follows blk READAHEAD 1 hfill.wf)

theorem bcacheWrite_follows (h : st.c.Wf) (blk : Nat) (buf : Buf) :
    Follows st (st.bcacheWrite blk buf).2 := by
  unfold bcacheWrite
  cases hl : st.c.lookup blk with
  | none =>
    have hcl := claim_claimed h hl
    have hwf := hcl.fill (v := { (st.claim blk).2.c.slots (st.claim blk).1 with valid := true })
      hcl.blk_eq rfl
    have hsize := (claim_slots h blk).1
    exact ⟨hwf.setSlot rfl rfl, ⟨hsize.1, hsize.2, hsize.3⟩, claim_oracle h blk⟩
  | some s =>
    have hsame := lruTouch_same st.c s
    exact ⟨(h.touch (h.lookup_eq_some.mp hl).1.1).setSlot rfl rfl,
      .trans (.of_lru hsame) (.setSlot _ _ _), .refl _⟩

theorem readRunSlow_follows (n blk : Nat) (h : st.c.Wf) : Follows st (st.readRunSlow blk n).2 := by
  induction n generalizing blk st with
  | zero => exact .refl h
  | succ n ih =>
    have hread := bcacheRead_follows h (u32 blk)
    rw [readRunSlow]
    split
    · rename_i st' heq
      rw [heq] at hread
      exact hread
    · rename_i b st' heq
      rw [heq] at hread
      exact hread.trans (ih (blk + 1) hread.wf)

theorem bcacheReadRun_follows (h : st.c.Wf) (blk n : Nat) :
    Follows st (st.bcacheReadRun blk n).2 := by
  unfold bcacheReadRun
  split
  · exact .refl h
  split
  · exact readRunSlow_follows n blk h
  -- a device read moves nothing but the oracle's position
  have hread := sameOracle_read st.dev (blk * st.c.spb) (u32 (n * st.c.spb))
  split
  · rename_i dev heq
    rw [heq] at hread
    exact ⟨h, .refl _, hread⟩
  · rename_i buf dev heq
    rw [heq] at hread
    exact ⟨h, .refl _, hread⟩

theorem syncSlots_follows (l : List Nat) (h : st.c.Wf) : Follows st (st.syncSlots l).2 := by
  induction l generalizing st with
  | nil => exact .refl h
  | cons s l ih =>
    have hflush := flushSlot_follows h s
    exact hflush.trans (ih hflush.wf)

theorem bcacheForget_follows (h : st.c.Wf) (blk : Nat) : Follows st (st.bcacheForget blk) := by
  unfold bcacheForget
  split
  · exact .refl h
  rename_i s hl
  have hk := flushSlot_keeps st s
  have hs := (h.lookup_eq_some.mp hl).1
  have hsame := hashRemove_same (st.flushSlot s).2.c s
  have hdrop := (hk.wf h).drop ((hk.resident s).mpr hs)
    (v := { ((st.flushSlot s).2.c.hashRemove s).slots s with valid := false, dirty := false }) rfl
  refine ⟨hdrop.toBack ?_, ?_, flushSlot_oracle st s⟩
  · show s < ((st.flushSlot s).2.c.hashRemove s).nslots
    rw [hsame.nslots, hk.size.nslots]
    exact hs.1
  · exact (hk.size.trans (.trans (.of_hash hsame) (.setSlot _ _ _))).trans
      (.of_lru ((lruUnlink_same _ s).trans (lruPushBack_same _ s)))

end Cached

end JuampiOs
