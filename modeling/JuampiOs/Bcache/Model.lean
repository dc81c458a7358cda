import JuampiOs.BlockDev

/-!
# The block cache

The write-back LRU block cache of `src/bcache.c`. A cache has `nslots` slots, each able to
hold one block. Slots are named by their index in the slot array, and a pointer to a slot
is an index or `none` (NULL). The three link fields of a slot are kept as maps from slots
to pointers: `lruPrev i` is `slots[i].lru_prev`, and so on.

Pointer walks (`lookup`, `hashRemove`) take a bound on the number of links followed. The
callers pass `nslots`, which is the length of the longest chain without a repetition.
-/

namespace JuampiOs

open Function

/-- `READAHEAD`: blocks prefetched after a miss. -/
def READAHEAD : Nat := 3

/-- Truncation to `uint32_t`. -/
def u32 (n : Nat) : Nat := n % 2 ^ 32

theorem u32_of_lt {n : Nat} (h : n < 2 ^ 32) : u32 n = n := Nat.mod_eq_of_lt h

/-- `struct bcache_slot`, less its link fields. -/
structure Slot where
  blk : Nat
  valid : Bool
  dirty : Bool
  data : Buf

/-- `struct bcache_stats`. -/
structure BcacheStats where
  hits : Nat
  misses : Nat
  writebacks : Nat
  evictions : Nat

/-- `struct bcache`. -/
structure Bcache where
  blockSize : Nat
  /-- 512-byte sectors per cache block -/
  spb : Nat
  nslots : Nat
  slots : Nat → Slot
  lruPrev : Nat → Option Nat
  lruNext : Nat → Option Nat
  hashNext : Nat → Option Nat
  buckets : Nat → Option Nat
  /-- a power of two, so that a mask selects the bucket -/
  nbuckets : Nat
  lruHead : Option Nat
  lruTail : Option Nat
  stats : BcacheStats

/-- A cache together with the device it caches. -/
structure Cached where
  c : Bcache
  dev : BlockDev

namespace Bcache

def bucketOf (c : Bcache) (blk : Nat) : Nat := blk &&& (c.nbuckets - 1)

/-- Store to a field of slot `s` other than its links. -/
def setSlot (c : Bcache) (s : Nat) (v : Slot) : Bcache :=
  { c with slots := update c.slots s v }

/-- Copy a block into slot `s` and mark it dirty. -/
def store (c : Bcache) (s : Nat) (buf : Buf) : Bcache :=
  c.setSlot s { c.slots s with data := Buf.take c.blockSize buf, dirty := true }

def countHit (c : Bcache) : Bcache :=
  { c with stats := { c.stats with hits := c.stats.hits + 1 } }

def countMiss (c : Bcache) : Bcache :=
  { c with stats := { c.stats with misses := c.stats.misses + 1 } }

def countWriteback (c : Bcache) : Bcache :=
  { c with stats := { c.stats with writebacks := c.stats.writebacks + 1 } }

def countEviction (c : Bcache) : Bcache :=
  { c with stats := { c.stats with evictions := c.stats.evictions + 1 } }

/-! ## Intrusive list plumbing -/

def lruUnlink (c : Bcache) (s : Nat) : Bcache :=
  let c := match c.lruPrev s with
    | some p => { c with lruNext := update c.lruNext p (c.lruNext s) }
    | none => { c with lruHead := c.lruNext s }
  let c := match c.lruNext s with
    | some n => { c with lruPrev := update c.lruPrev n (c.lruPrev s) }
    | none => { c with lruTail := c.lruPrev s }
  { c with
    lruPrev := update c.lruPrev s none
    lruNext := update c.lruNext s none }

def lruPushFront (c : Bcache) (s : Nat) : Bcache :=
  let c := { c with
    lruPrev := update c.lruPrev s none
    lruNext := update c.lruNext s c.lruHead }
  let c := match c.lruHead with
    | some h => { c with lruPrev := update c.lruPrev h (some s) }
    | none => c
  let c := { c with lruHead := some s }
  match c.lruTail with
  | some _ => c
  | none => { c with lruTail := some s }

def lruPushBack (c : Bcache) (s : Nat) : Bcache :=
  let c := { c with
    lruNext := update c.lruNext s none
    lruPrev := update c.lruPrev s c.lruTail }
  let c := match c.lruTail with
    | some t => { c with lruNext := update c.lruNext t (some s) }
    | none => c
  let c := { c with lruTail := some s }
  match c.lruHead with
  | some _ => c
  | none => { c with lruHead := some s }

def lruTouch (c : Bcache) (s : Nat) : Bcache :=
  if c.lruHead = some s then c else (c.lruUnlink s).lruPushFront s

def hashInsert (c : Bcache) (s : Nat) : Bcache :=
  let b := c.bucketOf (c.slots s).blk
  { c with
    hashNext := update c.hashNext s (c.buckets b)
    buckets := update c.buckets b (some s) }

/-- The loop of `hash_remove` once `pp` is the address of `slots[p].hash_next`. -/
def hashRemoveAfter (c : Bcache) : Nat → Nat → Nat → Bcache
  | 0, _, _ => c
  | fuel + 1, p, s =>
    match c.hashNext p with
    | none => c
    | some q =>
      if q = s then { c with hashNext := update c.hashNext p (c.hashNext s) }
      else hashRemoveAfter c fuel q s

def hashRemove (c : Bcache) (s : Nat) : Bcache :=
  let b := c.bucketOf (c.slots s).blk
  let c := match c.buckets b with
    | none => c
    | some h =>
      if h = s then { c with buckets := update c.buckets b (c.hashNext s) }
      else c.hashRemoveAfter c.nslots h s
  { c with hashNext := update c.hashNext s none }

/-- The loop of `lookup` from the chain position `p`. -/
def lookupFrom (c : Bcache) (blk : Nat) : Nat → Option Nat → Option Nat
  | 0, _ => none
  | _ + 1, none => none
  | fuel + 1, some s =>
    if (c.slots s).valid && (c.slots s).blk == blk then some s
    else lookupFrom c blk fuel (c.hashNext s)

def lookup (c : Bcache) (blk : Nat) : Option Nat :=
  c.lookupFrom blk c.nslots (c.buckets (c.bucketOf blk))

/-! ## Creation -/

/-- The bucket-count loop of `bcache_create` on a `uint32_t`. After 32 doublings the
counter is 0 and stays 0, so `none` is the loop that never ends. -/
def bucketCount (nslots : Nat) : Nat → Nat → Option Nat
  | 0, _ => none
  | fuel + 1, nb => if nb < nslots then bucketCount nslots fuel (u32 (nb * 2)) else some nb

/-- The cache before the LRU list is seeded: all memory comes zeroed from the heap. -/
def blank (blockSize nslots nbuckets : Nat) : Bcache where
  blockSize := blockSize
  spb := blockSize / 512
  nslots := nslots
  slots := fun _ => ⟨0, false, false, Buf.zero⟩
  lruPrev := fun _ => none
  lruNext := fun _ => none
  hashNext := fun _ => none
  buckets := fun _ => none
  nbuckets := nbuckets
  lruHead := none
  lruTail := none
  stats := ⟨0, 0, 0, 0⟩

end Bcache

/-- `bcache_create`: `none` is NULL (bad arguments), or a bucket-count loop that does not
end. -/
def bcacheCreate (blockSize nslots : Nat) : Option Bcache :=
  if blockSize = 0 ∨ blockSize % 512 ≠ 0 ∨ nslots = 0 then none
  else
    match Bcache.bucketCount nslots 33 1 with
    | none => none
    | some nb => some ((List.range nslots).foldl Bcache.lruPushFront (Bcache.blank blockSize nslots nb))

namespace Cached

/-! ## Device I/O for a single cache block -/

def devReadBlock (st : Cached) (blk : Nat) : Option Buf × Cached :=
  let r := st.dev.read (blk * st.c.spb) st.c.spb
  (r.1, { st with dev := r.2 })

def devWriteBlock (st : Cached) (blk : Nat) (buf : Buf) : Bool × Cached :=
  let r := st.dev.write (blk * st.c.spb) st.c.spb buf
  (r.1, { st with dev := r.2 })

/-- Flush a dirty slot to disk; on success it is clean again. -/
def flushSlot (st : Cached) (s : Nat) : Bool × Cached :=
  let slot := st.c.slots s
  if !slot.valid || !slot.dirty then (true, st)
  else
    match st.devWriteBlock slot.blk slot.data with
    | (false, st) => (false, st)
    | (true, st) =>
      (true, { st with c := (st.c.setSlot s { slot with dirty := false }).countWriteback })

/-- The first half of `claim`: write the victim back and take it out of its chain. The
result of the write-back is dropped. -/
def evict (st : Cached) (s : Nat) : Cached :=
  if (st.c.slots s).valid then
    let st := (st.flushSlot s).2
    { st with c := (st.c.hashRemove s).countEviction }
  else st

/-- Claim a slot for `blk`: reuse the LRU tail, writing it back and evicting its old
contents first. The slot comes back rehashed to `blk`, at the LRU front, still invalid. -/
def claim (st : Cached) (blk : Nat) : Nat × Cached :=
  -- the list is never empty, since a cache has at least one slot
  let s := st.c.lruTail.getD 0
  let st := st.evict s
  let c := st.c.setSlot s { st.c.slots s with valid := false, dirty := false, blk := blk }
  (s, { st with c := (c.hashInsert s).lruTouch s })

/-- Fetch `blk` into the cache without read-ahead. -/
def fill (st : Cached) (blk : Nat) : Option Nat × Cached :=
  match st.c.lookup blk with
  | some s =>
    (some s, { st with c := st.c.countHit.lruTouch s })
  | none =>
    match claim { st with c := st.c.countMiss } blk with
    | (s, st) =>
      match st.devReadBlock blk with
      | (none, st) =>
        -- drop the half-initialised slot so that a retry re-reads it
        let c := st.c.hashRemove s
        (none, { st with c := c.setSlot s { c.slots s with blk := 0 } })
      | (some buf, st) =>
        (some s, { st with
          c := st.c.setSlot s { st.c.slots s with valid := true, data := buf } })

/-- The read-ahead loop from its `i`-th iteration on; `fuel` iterations are left. -/
def readaheadFrom (st : Cached) (blk : Nat) : Nat → Nat → Cached
  | 0, _ => st
  | fuel + 1, i =>
    let total := st.dev.nsectors / st.c.spb
    let next := u32 (blk + i)
    if total ≠ 0 ∧ total ≤ next then st
    else if (st.c.lookup next).isSome then readaheadFrom st blk fuel (i + 1)
    else if (st.c.slots (st.c.lruTail.getD 0)).valid &&
        (st.c.slots (st.c.lruTail.getD 0)).dirty then st
    else
      match st.fill next with
      | (none, st) => st
      | (some _, st) => readaheadFrom st blk fuel (i + 1)

/-- Prefetch up to `READAHEAD` blocks after `blk`, never forcing a write-back. -/
def readahead (st : Cached) (blk : Nat) : Cached := st.readaheadFrom blk READAHEAD 1

/-! ## Public API -/

/-- `bcache_read`: the block's bytes, or `none` when the call returns false. -/
def bcacheRead (st : Cached) (blk : Nat) : Option Buf × Cached :=
  match st.c.lookup blk with
  | some s =>
    (some (Buf.take st.c.blockSize (st.c.slots s).data),
      { st with c := st.c.countHit.lruTouch s })
  | none =>
    match st.fill blk with
    | (none, st) => (none, st)
    | (some s, st) =>
      -- copied out before the read-ahead, which may evict the slot again
      (some (Buf.take st.c.blockSize (st.c.slots s).data), st.readahead blk)

/-- `bcache_write`; it always returns true. -/
def bcacheWrite (st : Cached) (blk : Nat) (buf : Buf) : Bool × Cached :=
  let (s, st) := match st.c.lookup blk with
    | none =>
      let (s, st) := st.claim blk
      (s, { st with c := st.c.setSlot s { st.c.slots s with valid := true } })
    | some s => (s, { st with c := st.c.lruTouch s })
  (true, { st with c := st.c.store s buf })

/-- The slow path of `bcache_read_run`: `n` blocks one at a time from `blk`. The list is
what has been copied out when the loop stops. -/
def readRunSlow (st : Cached) : Nat → Nat → (Bool × List Buf) × Cached
  | _, 0 => ((true, []), st)
  | blk, n + 1 =>
    match st.bcacheRead (u32 blk) with
    | (none, st) => ((false, []), st)
    | (some b, st) =>
      let r := readRunSlow st (blk + 1) n
      ((r.1.1, b :: r.1.2), r.2)

/-- `bcache_read_run`: whether it succeeded, and the blocks copied to the buffer. -/
def bcacheReadRun (st : Cached) (blk n : Nat) : (Bool × List Buf) × Cached :=
  if n = 0 then ((true, []), st)
  else if (List.range n).any fun i => (st.c.lookup (u32 (blk + i))).isSome then
    st.readRunSlow blk n
  else
    -- nothing in the range is resident: one big device read
    match st.dev.read (blk * st.c.spb) (u32 (n * st.c.spb)) with
    | (none, dev) => ((false, []), { st with dev := dev })
    | (some buf, dev) =>
      ((true, (List.range n).map fun i =>
        Buf.take st.c.blockSize fun j => buf (i * st.c.blockSize + j)), { st with dev := dev })

/-- The loop of `bcache_sync` over the slots of `l`. -/
def syncSlots (st : Cached) : List Nat → Bool × Cached
  | [] => (true, st)
  | s :: l =>
    let r := st.flushSlot s
    let t := syncSlots r.2 l
    (r.1 && t.1, t.2)

/-- `bcache_sync`: flush every slot; false if any write failed. -/
def bcacheSync (st : Cached) : Bool × Cached := st.syncSlots (List.range st.c.nslots)

/-- `bcache_forget`: write the block back if it is dirty and drop it. -/
def bcacheForget (st : Cached) (blk : Nat) : Cached :=
  match st.c.lookup blk with
  | none => st
  | some s =>
    let st := (st.flushSlot s).2 -- the result is dropped
    let c := st.c.hashRemove s
    let c := c.setSlot s { c.slots s with valid := false, dirty := false }
    { st with c := (c.lruUnlink s).lruPushBack s }

end Cached

end JuampiOs
