import JuampiOs.Bcache.Coherence

/-!
# Runs of the block cache

Whole sequences of public calls on a freshly created cache. With a device that never fails
the replies are those of a plain array of blocks (`replies_eq_arrayRun`). With a device
whose writes fail, an eviction or a `bcache_forget` whose write-back fails drops the only
copy of the block (`failed_eviction_loses_block`), though the lists of the cache stay in
order (`run_represented`); as long as failures hit `bcache_sync`
alone, a sync that returns true has put the whole array on the device
(`sync_true_of_spared`).
-/

namespace JuampiOs

open Bcache Cached List Cached

/-! ## Creation -/

namespace Bcache

/-- Seeding the LRU list: pushing the slots of `l` in turn threads them in reverse. -/
theorem foldl_pushFront_dll : ∀ (l done : List Nat) {c : Bcache},
    Lib.Dll c.lruNext c.lruPrev c.lruHead c.lruTail done → (l ++ done).Nodup →
      Lib.Dll (l.foldl lruPushFront c).lruNext (l.foldl lruPushFront c).lruPrev
        (l.foldl lruPushFront c).lruHead (l.foldl lruPushFront c).lruTail (l.reverse ++ done)
  | [], _, _, h, _ => h
  | s :: l, done, c, h, hnd => by
    have hnd' : (l ++ s :: done).Nodup := nodup_middle.mpr hnd
    obtain ⟨hs, hdone⟩ := nodup_cons.mp hnd
    have hfresh : s ∉ done := fun hmem => hs (mem_append_right l hmem)
    have hstep := lruPushFront_dll h (Nodup.of_append_right hdone) hfresh
    have ih := foldl_pushFront_dll l (s :: done) hstep hnd'
    simpa using ih

theorem foldl_pushFront_same (l : List Nat) (c : Bcache) :
    SameButLru c (l.foldl lruPushFront c) := by
  induction l generalizing c with
  | nil => exact SameButLru.refl c
  | cons s l ih => exact (lruPushFront_same c s).trans (ih _)

theorem bucketCount_isSome {nslots : Nat} (h : nslots ≤ 2 ^ 31) :
    ∀ (fuel k : Nat), k ≤ 31 → 31 < k + fuel → (bucketCount nslots fuel (2 ^ k)).isSome
  | 0, k, hk, hfuel => absurd hfuel (by omega)
  | fuel + 1, k, hk, hfuel => by
    unfold bucketCount
    split
    · rename_i hlt
      have hk31 : k < 31 := by
        have : 2 ^ k < 2 ^ 31 := lt_of_lt_of_le hlt h
        exact (Nat.pow_lt_pow_iff_right (by decide)).mp this
      have hdouble : u32 (2 ^ k * 2) = 2 ^ (k + 1) := by
        rw [← pow_succ]
        exact u32_of_lt (Nat.pow_lt_pow_right (by decide) (by omega))
      rw [hdouble]
      exact bucketCount_isSome h fuel (k + 1) (by omega) (by omega)
    · rfl

end Bcache

variable {blockSize nslots : Nat} {c : Bcache} {A : Nat → Buf} {st : Cached}

/-- `bcache_create` returns a cache for every positive multiple of 512 and every slot count
from 1 to `2 ^ 31`. -/
theorem bcacheCreate_isSome (hbs : 0 < blockSize)
    (hmod : blockSize % 512 = 0) (hpos : 1 ≤ nslots) (hle : nslots ≤ 2 ^ 31) :
    (bcacheCreate blockSize nslots).isSome := by
  have hbucket := bucketCount_isSome hle 33 0 (by omega) (by omega)
  obtain ⟨nb, hnb⟩ := Option.isSome_iff_exists.mp hbucket
  have hguard : ¬ (blockSize = 0 ∨ blockSize % 512 ≠ 0 ∨ nslots = 0) := by omega
  unfold bcacheCreate
  rw [if_neg hguard]
  simp only [pow_zero] at hnb
  rw [hnb]
  rfl

theorem bcacheCreate_wf (h : bcacheCreate blockSize nslots = some c) :
    c.Wf ∧ c.blockSize = blockSize ∧ c.spb = blockSize / 512 ∧ ∀ s, ¬ c.Resident s := by
  unfold bcacheCreate at h
  split at h
  · cases h
  rename_i hguard
  split at h
  · cases h
  rename_i nb _
  obtain rfl := Option.some.inj h
  have hsame := foldl_pushFront_same (range nslots) (blank blockSize nslots nb)
  have hempty : ∀ s, ¬ Resident ((range nslots).foldl lruPushFront
      (blank blockSize nslots nb)) s := by
    intro s hs
    have := hs.2
    rw [hsame.slots] at this
    cases this
  have hdll := foldl_pushFront_dll (range nslots) [] (c := blank blockSize nslots nb)
    ⟨rfl, rfl⟩ (by simpa using nodup_range)
  refine ⟨⟨?_, ?_, ?_, ?_, ?_, ?_⟩, hsame.blockSize, hsame.spb, hempty⟩
  · rw [hsame.nslots]
    show 0 < nslots
    omega
  · rw [hsame.spb]
    show 0 < blockSize / 512
    omega
  · rw [hsame.blockSize, hsame.spb]
    show blockSize = blockSize / 512 * 512
    omega
  · refine ⟨_, hdll, ?_⟩
    rw [hsame.nslots, append_nil]
    exact reverse_perm _
  · intro b
    refine ⟨[], by rw [hsame.buckets]; rfl, nodup_nil, fun s => ?_⟩
    constructor
    · intro hs
      simp at hs
    · rintro ⟨hs, _⟩
      exact absurd hs (hempty s)
  · intro s t hs
    exact absurd hs (hempty s)

/-- A cache that holds nothing is coherent with the contents of its device. -/
theorem coherent_of_empty {X : Nat → Prop} (st : Cached) (h : ∀ s, ¬ st.c.Resident s) :
    Coherent X (st.dev.block st.c.blockSize) st :=
  ⟨fun s hs => absurd hs (h s), fun _ _ => rfl, fun s hs => absurd hs (h s)⟩

/-! ## Calls -/

/-- A call of the public interface. -/
inductive BcacheCall where
  | read (blk : Nat)
  | write (blk : Nat) (buf : Buf)
  | readRun (blk n : Nat)
  | sync
  | forget (blk : Nat)

/-- What the caller sees: the returned boolean and the bytes delivered. -/
inductive BcacheReply where
  | block (b : Option Buf)
  | wrote (ok : Bool)
  | run (ok : Bool) (blocks : List Buf)
  | synced (ok : Bool)
  | forgot

def Cached.step (st : Cached) : BcacheCall → BcacheReply × Cached
  | .read blk => (.block (st.bcacheRead blk).1, (st.bcacheRead blk).2)
  | .write blk buf => (.wrote (st.bcacheWrite blk buf).1, (st.bcacheWrite blk buf).2)
  | .readRun blk n =>
    (.run (st.bcacheReadRun blk n).1.1 (st.bcacheReadRun blk n).1.2, (st.bcacheReadRun blk n).2)
  | .sync => (.synced st.bcacheSync.1, st.bcacheSync.2)
  | .forget blk => (.forgot, st.bcacheForget blk)

/-- A sequence of calls: the replies in order and the final state. -/
def Cached.runCalls (st : Cached) : List BcacheCall → List BcacheReply × Cached
  | [] => ([], st)
  | call :: calls =>
    let r := st.step call
    let t := r.2.runCalls calls
    (r.1 :: t.1, t.2)

/-! ## Every run, on every device -/

theorem step_follows (h : st.c.Wf) (call : BcacheCall) :
    Follows st (st.step call).2 := by
  cases call with
  | read blk => exact bcacheRead_follows h blk
  | write blk buf => exact bcacheWrite_follows h blk buf
  | readRun blk n => exact bcacheReadRun_follows h blk n
  | sync => exact syncSlots_follows _ h
  | forget blk => exact bcacheForget_follows h blk

theorem runCalls_wf (calls : List BcacheCall) (h : st.c.Wf) : (st.runCalls calls).2.c.Wf := by
  induction calls generalizing st with
  | nil => exact h
  | cons call calls ih => exact ih (step_follows h call).wf

/-- **The representation survives every run**, whatever the device does: one doubly linked list
threads all the slots, the chain of every bucket ends, repeats nothing and holds exactly the valid
slots whose block falls into it, and no two valid slots hold the same block. -/
theorem run_represented (hc : bcacheCreate blockSize nslots = some c) (dev : BlockDev)
    (calls : List BcacheCall) :
    let c' := (runCalls ⟨c, dev⟩ calls).2.c
    c'.LruOk ∧ c'.Hashed c'.Resident ∧ c'.Unique := by
  have h := @runCalls_wf ⟨c, dev⟩ calls (bcacheCreate_wf hc).1
  exact ⟨h.lru, h.hash, h.unique⟩

/-! ## The abstract array -/

/-- The same calls on a plain array of blocks. -/
def arrayStep (bs : Nat) (A : Nat → Buf) : BcacheCall → BcacheReply × (Nat → Buf)
  | .read blk => (.block (some (A blk)), A)
  | .write blk buf => (.wrote true, Function.update A blk (Buf.take bs buf))
  | .readRun blk n => (.run true ((List.range n).map fun i => A (blk + i)), A)
  | .sync => (.synced true, A)
  | .forget _ => (.forgot, A)

def arrayRun (bs : Nat) (A : Nat → Buf) : List BcacheCall → List BcacheReply × (Nat → Buf)
  | [] => ([], A)
  | call :: calls =>
    let r := arrayStep bs A call
    let t := arrayRun bs r.2 calls
    (r.1 :: t.1, t.2)

/-- The blocks of a call lie inside the device and have `uint32_t` numbers, and the sector
count of a run fits the device command. -/
def BcacheCall.InDevice (nsectors spb : Nat) : BcacheCall → Prop
  | .read blk => (blk + 1) * spb ≤ nsectors ∧ blk + 1 ≤ 2 ^ 32
  | .write blk _ => (blk + 1) * spb ≤ nsectors ∧ blk + 1 ≤ 2 ^ 32
  | .readRun blk n => (blk + n) * spb ≤ nsectors ∧ blk + n ≤ 2 ^ 32 ∧ n * spb < 2 ^ 32
  | .sync => True
  | .forget blk => (blk + 1) * spb ≤ nsectors ∧ blk + 1 ≤ 2 ^ 32

/-- No write command that the call issues fails, unless the call is `bcache_sync`. -/
def Cached.Spares (st : Cached) : BcacheCall → Prop
  | .sync => True
  | call => BlockDev.Calm st.dev (st.step call).2.dev

/-- No write command of the run fails, other than in `bcache_sync`. -/
def Cached.Spared (st : Cached) : List BcacheCall → Prop
  | [] => True
  | call :: calls => st.Spares call ∧ (st.step call).2.Spared calls

instance (st : Cached) (call : BcacheCall) : Decidable (st.Spares call) := by
  unfold Cached.Spares; split <;> infer_instance

instance decidableSpared : ∀ (calls : List BcacheCall) (st : Cached), Decidable (st.Spared calls)
  | [], _ => isTrue trivial
  | call :: calls, st =>
    have := decidableSpared calls (st.step call).2
    inferInstanceAs (Decidable (st.Spares call ∧ (st.step call).2.Spared calls))

/-! ## One call -/

/-- The owned-device coupling: a well-formed cache that stands for the array `A`. -/
structure Cached.Stands (bs : Nat) (A : Nat → Buf) (st : Cached) : Prop where
  wf : st.c.Wf
  size : st.c.blockSize = bs
  coh : Coherent (fun _ => False) A st
  reads : st.dev.ReadsOk

variable {bs : Nat}

/-- **One call keeps the coupling**: the cache stands for the array the call leaves, if no
write outside `bcache_sync` fails. -/
theorem step_stands (h : st.Stands bs A)
    (call : BcacheCall) (hs : st.Spares call) :
    (st.step call).2.Stands bs (arrayStep bs A call).2 := by
  obtain ⟨hwf, rfl, hcoh, hr⟩ := h
  have hf := step_follows hwf call
  refine ⟨hf.wf, hf.size.blockSize, ?_, hf.oracle.readsOk hr⟩
  cases call with
  | read blk =>
    obtain ⟨_, _, _, hcoh'⟩ := bcacheRead_coherent hwf hcoh hr blk hs
    exact hcoh'
  | write blk buf => exact (bcacheWrite_coherent hwf hcoh blk (by simp) buf hs).2
  | readRun blk n => exact bcacheReadRun_coherent hwf hcoh hr blk n hs
  | sync => exact (bcacheSync_coherent hwf hcoh).1
  | forget blk => exact bcacheForget_coherent hwf hcoh blk hs

theorem BlockDev.WritesOk.spares (hw : st.dev.WritesOk) (call : BcacheCall) :
    st.Spares call := by
  cases call with
  | sync => trivial
  | read | write | readRun | forget => exact hw.calm _

/-- **One call replies like the array** when no write fails. -/
theorem step_reply (h : st.Stands bs A)
    (hw : st.dev.WritesOk) {call : BcacheCall}
    (hin : call.InDevice st.dev.nsectors st.c.spb) :
    (st.step call).1 = (arrayStep bs A call).1 := by
  obtain ⟨hwf, rfl, hcoh, hr⟩ := h
  cases call with
  | read blk =>
    obtain ⟨b, hb, hbA, _⟩ := bcacheRead_coherent hwf hcoh hr blk (hw.calm _)
    simp [step, arrayStep, hb, hbA]
  | write blk buf =>
    obtain ⟨hret, _⟩ := bcacheWrite_coherent hwf hcoh blk (by simp) buf (hw.calm _)
    simp [step, arrayStep, hret]
  | readRun blk n =>
    obtain ⟨_, hrange, hspan⟩ := hin
    have hl := bcacheReadRun_blocks hwf hcoh hr hrange hspan (hw.calm _) fun _ _ => id
    simp [step, arrayStep, hl]
  | sync =>
    have hret : st.bcacheSync.1 = true := syncSlots_fst _ hwf (hw.calm _)
    simp [step, arrayStep, hret]
  | forget blk => rfl

/-! ## Whole runs -/

theorem runCalls_eq_arrayRun :
    ∀ (calls : List BcacheCall) {A : Nat → Buf} {st : Cached}, st.Stands bs A →
      st.dev.WritesOk → (∀ call ∈ calls, call.InDevice st.dev.nsectors st.c.spb) →
      (st.runCalls calls).1 = (arrayRun bs A calls).1
  | [], _, _, _, _, _ => rfl
  | call :: calls, A, st, h, hw, hin => by
    have hf := step_follows h.wf call
    have hreply := step_reply h hw (hin call mem_cons_self)
    have hstands := step_stands h call (hw.spares call)
    have ih := runCalls_eq_arrayRun calls hstands (hf.oracle.writesOk hw) fun c hc => by
      rw [hf.size.spb, hf.oracle.nsectors]
      exact hin c (mem_cons_of_mem call hc)
    simp only [runCalls, arrayRun, hreply, ih]

theorem create_stands (hc : bcacheCreate blockSize nslots = some c) {dev : BlockDev}
    (hr : dev.ReadsOk) : Cached.Stands blockSize (dev.block blockSize) ⟨c, dev⟩ := by
  obtain ⟨hwf, rfl, _, hempty⟩ := bcacheCreate_wf hc
  exact ⟨hwf, rfl, coherent_of_empty ⟨c, dev⟩ hempty, hr⟩

/-- **The cache is a plain array of blocks.** On a device that never fails, every sequence
of calls inside the device gets the replies an array of blocks would give, whatever the
number of slots: every read returns true and delivers the bytes last written to the block,
or those the device held at first. -/
theorem replies_eq_arrayRun (hc : bcacheCreate blockSize nslots = some c) (dev : BlockDev)
    (hr : dev.ReadsOk) (hw : dev.WritesOk) (calls : List BcacheCall)
    (hin : ∀ call ∈ calls, call.InDevice dev.nsectors (blockSize / 512)) :
    (Cached.runCalls ⟨c, dev⟩ calls).1 = (arrayRun blockSize (dev.block blockSize) calls).1 := by
  refine runCalls_eq_arrayRun calls (create_stands hc hr) hw fun call hcall => ?_
  show call.InDevice dev.nsectors c.spb
  rw [(bcacheCreate_wf hc).2.2.1]
  exact hin call hcall

/-- A blank eight-sector device that takes every command. -/
def blankDev : BlockDev where
  disk := fun _ => 0
  nsectors := 8
  readFault := fun _ => false
  writeFault := fun _ => none
  nreads := 0
  nwrites := 0

/-- A cache of one 512-byte slot. -/
def oneSlot : Bcache := lruPushFront (blank 512 1 1) 0

/-- One slot, and calls that evict, bypass, drop and sync. -/
theorem replies_eq_arrayRun_oneSlot : let calls : List BcacheCall :=
      [.write 0 (fun _ => 1), .read 1, .readRun 0 2, .write 2 (fun _ => 3), .forget 2, .sync, .read 0]
    (∀ call ∈ calls, call.InDevice blankDev.nsectors (512 / 512)) ∧
      (runCalls ⟨oneSlot, blankDev⟩ calls).1 =
        (arrayRun 512 (blankDev.block 512) calls).1 := by
  intro calls
  have hin : ∀ call ∈ calls, call.InDevice blankDev.nsectors (512 / 512) := by
    simp [calls, BcacheCall.InDevice, blankDev]
  exact ⟨hin, @replies_eq_arrayRun 512 1 oneSlot rfl blankDev (fun _ => rfl) (fun _ _ => rfl) calls hin⟩

theorem runCalls_stands :
    ∀ (calls : List BcacheCall) {A : Nat → Buf} {st : Cached}, st.Stands bs A →
      st.Spared calls → (st.runCalls calls).2.Stands bs (arrayRun bs A calls).2
  | [], _, _, h, _ => h
  | call :: calls, _, _, h, hs => runCalls_stands calls (step_stands h call hs.1) hs.2

/-- **A sync that returns true has put the whole array on the device**, in every run in
which no write command fails outside `bcache_sync`; and until then every block the device does
not hold is held by a dirty slot. -/
theorem sync_true_of_spared (hc : bcacheCreate blockSize nslots = some c) (dev : BlockDev)
    (hr : dev.ReadsOk) (calls : List BcacheCall) (hs : Cached.Spared ⟨c, dev⟩ calls) :
    let A := (arrayRun blockSize (dev.block blockSize) calls).2
    let st := (runCalls ⟨c, dev⟩ calls).2
    (st.bcacheSync.1 = true → ∀ b, st.bcacheSync.2.dev.block blockSize b = A b) ∧
      ∀ b, st.dev.block blockSize b ≠ A b → ∃ s, st.c.Resident s ∧ (st.c.slots s).blk = b ∧
        (st.c.slots s).dirty = true ∧ Buf.take blockSize (st.c.slots s).data = A b := by
  have hst := runCalls_stands calls (create_stands hc hr) hs
  dsimp only
  refine ⟨fun hret b => ?_, fun b hb => ?_⟩
  · have hsync := (bcacheSync_coherent hst.wf hst.coh).2
    rw [hst.size] at hsync
    exact hsync hret b
  · by_contra hnone
    refine hb ?_
    have hback := hst.coh.back b fun s hs hblk => by
      by_contra hd
      refine hnone ⟨s, hs, hblk, by simpa using hd, ?_⟩
      have hhit := hst.coh.hit s hs (by simp)
      rw [hst.size, hblk] at hhit
      exact hhit
    rw [hst.size] at hback
    exact hback

/-- The blank device, with the write commands in `bad` failing untouched. -/
def failingDev (bad : Nat → Bool) : BlockDev :=
  { blankDev with writeFault := fun k => if bad k then some fun _ => none else none }

/-- One slot on a device that fails every command. -/
theorem run_represented_oneSlot :
    let dev := { failingDev fun _ => true with readFault := fun _ => true }
    let c' := (runCalls ⟨oneSlot, dev⟩ [.write 0 (fun _ => 1), .read 1, .forget 0, .sync]).2.c
    c'.LruOk ∧ c'.Hashed c'.Resident ∧ c'.Unique :=
  @run_represented 512 1 oneSlot rfl _ _

/-- The second write command alone fails: it is issued by the first `bcache_sync`, which returns
false, and the next one returns true. -/
theorem sync_true_of_spared_retry :
    let calls : List BcacheCall := [.write 0 (fun _ => 1), .read 1, .write 0 (fun _ => 2), .sync]
    let dev := failingDev (· == 1)
    Spared ⟨oneSlot, dev⟩ calls ∧ (runCalls ⟨oneSlot, dev⟩ calls).2.dev.nwrites = 2 ∧
      (runCalls ⟨oneSlot, dev⟩ calls).2.bcacheSync.1 = true ∧
        ∀ b, (runCalls ⟨oneSlot, dev⟩ calls).2.bcacheSync.2.dev.block 512 b =
          (arrayRun 512 (dev.block 512) calls).2 b := by
  intro calls dev
  have hs : Spared ⟨oneSlot, dev⟩ calls := by decide +kernel
  have htrue : (runCalls ⟨oneSlot, dev⟩ calls).2.bcacheSync.1 = true := by decide +kernel
  have hsync := (@sync_true_of_spared 512 1 oneSlot rfl dev (fun _ => rfl) calls hs).1 htrue
  refine ⟨hs, ?_, htrue, hsync⟩
  decide +kernel

/-- **A failed eviction loses the block.** One slot, and a device whose writes all fail:
the write to block 0 is buffered, reading block 1 evicts it, and its failed write-back is
forgotten. The next `bcache_sync` returns true although the device still holds the old
byte. -/
theorem failed_eviction_loses_block :
    let calls : List BcacheCall := [.write 0 (fun _ => 1), .read 1]
    let st := (runCalls ⟨oneSlot, failingDev fun _ => true⟩ calls).2
    st.bcacheSync.1 = true ∧
      st.bcacheSync.2.dev.block 512 0 0 ≠
        (arrayRun 512 ((failingDev fun _ => true).block 512) calls).2 0 0 := by
  decide +kernel

end JuampiOs
