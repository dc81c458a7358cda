import JuampiOs.Lib.Links
import JuampiOs.Bcache.Model
import Mathlib.Data.List.Range
import Mathlib.Data.List.Perm.Subperm

/-!
# Representation of the block cache

The pointer structures of a cache, read back as lists. The LRU fields thread one doubly
linked list through all the slots; the hash fields thread one null-terminated chain per
bucket through the slots that are *hashed*. Between calls the hashed slots are the valid
ones (`Bcache.Wf`); inside `claim` the claimed slot is hashed before it is valid
(`Bcache.Claimed`).

Every operation is described once by what it does to these lists. Nothing here depends on
whether the device succeeds.
-/

namespace JuampiOs

open Lib Function List

namespace Bcache

/-- The LRU fields thread one doubly linked list through every slot, each exactly once. -/
def LruOk (c : Bcache) : Prop :=
  ∃ l, Dll c.lruNext c.lruPrev c.lruHead c.lruTail l ∧ l.Perm (List.range c.nslots)

/-- Every bucket holds a null-terminated chain without repetition, of exactly the slots of
`H` whose block falls into it. -/
def Hashed (c : Bcache) (H : Nat → Prop) : Prop :=
  ∀ b, ∃ l, Seg c.hashNext (c.buckets b) l none ∧ l.Nodup ∧
    ∀ s, s ∈ l ↔ H s ∧ c.bucketOf (c.slots s).blk = b

/-- The slots that hold a block. -/
def Resident (c : Bcache) (s : Nat) : Prop := s < c.nslots ∧ (c.slots s).valid = true

/-- No two resident slots hold the same block. -/
def Unique (c : Bcache) : Prop :=
  ∀ s t, c.Resident s → c.Resident t → (c.slots s).blk = (c.slots t).blk → s = t

/-- The invariant of a cache between calls. -/
structure Wf (c : Bcache) : Prop where
  pos : 0 < c.nslots
  spb_pos : 0 < c.spb
  blockSize_eq : c.blockSize = c.spb * 512
  lru : c.LruOk
  hash : c.Hashed c.Resident
  unique : c.Unique

/-- The state `claim` returns in: slot `s` is hashed for `blk` and not yet valid, and no
valid slot holds `blk`. -/
structure Claimed (c : Bcache) (s blk : Nat) : Prop where
  spb_pos : 0 < c.spb
  blockSize_eq : c.blockSize = c.spb * 512
  lru : c.LruOk
  hash : c.Hashed fun t => c.Resident t ∨ t = s
  unique : c.Unique
  lt : s < c.nslots
  invalid : (c.slots s).valid = false
  clean : (c.slots s).dirty = false
  blk_eq : (c.slots s).blk = blk
  fresh : ∀ t, c.Resident t → (c.slots t).blk ≠ blk

/-! ## The LRU list -/

/-- What the LRU operations may change: the LRU fields. -/
structure SameButLru (c c' : Bcache) : Prop where
  blockSize : c'.blockSize = c.blockSize
  spb : c'.spb = c.spb
  nslots : c'.nslots = c.nslots
  slots : c'.slots = c.slots
  hashNext : c'.hashNext = c.hashNext
  buckets : c'.buckets = c.buckets
  nbuckets : c'.nbuckets = c.nbuckets

theorem SameButLru.refl (c : Bcache) : SameButLru c c := ⟨rfl, rfl, rfl, rfl, rfl, rfl, rfl⟩

variable {c : Bcache} {s : Nat}

variable {c' : Bcache} {l : List Nat} {H : Nat → Prop} {v : Slot}

theorem SameButLru.trans {c'' : Bcache} (h : SameButLru c c') (h' : SameButLru c' c'') :
    SameButLru c c'' :=
  ⟨h'.1.trans h.1, h'.2.trans h.2, h'.3.trans h.3, h'.4.trans h.4, h'.5.trans h.5,
    h'.6.trans h.6, h'.7.trans h.7⟩

theorem lruUnlink_same (c : Bcache) (s : Nat) : SameButLru c (c.lruUnlink s) := by
  unfold lruUnlink
  cases c.lruPrev s <;> dsimp only <;> split <;> constructor <;> rfl

theorem lruPushFront_same (c : Bcache) (s : Nat) : SameButLru c (c.lruPushFront s) := by
  unfold lruPushFront
  cases c.lruHead <;> cases c.lruTail <;> constructor <;> rfl

theorem lruPushBack_same (c : Bcache) (s : Nat) : SameButLru c (c.lruPushBack s) := by
  unfold lruPushBack
  cases c.lruHead <;> cases c.lruTail <;> constructor <;> rfl

theorem lruTouch_same (c : Bcache) (s : Nat) : SameButLru c (c.lruTouch s) := by
  unfold lruTouch
  split
  · exact SameButLru.refl c
  · exact (lruUnlink_same c s).trans (lruPushFront_same _ s)

theorem lruUnlink_dll {l₁ l₂ : List Nat}
    (h : Dll c.lruNext c.lruPrev c.lruHead c.lruTail (l₁ ++ s :: l₂))
    (hnd : (l₁ ++ s :: l₂).Nodup) :
    Dll (c.lruUnlink s).lruNext (c.lruUnlink s).lruPrev (c.lruUnlink s).lruHead
      (c.lruUnlink s).lruTail (l₁ ++ l₂) := by
  have hs : s ∉ l₁ ++ l₂ := (nodup_middle.mp hnd |> nodup_cons.mp).1
  have hu := (h.unlink hnd).update_of_notMem hs none none
  -- neither neighbour is the node itself, so the stores do not disturb its own fields
  have hp : c.lruPrev s ≠ some s := by
    rw [h.prev_eq]
    intro heq
    exact hs (mem_append_left _ (mem_of_getLast? heq))
  have hn : c.lruNext s ≠ some s := by
    rw [h.next_eq]
    intro heq
    exact hs (mem_append_right _ (mem_of_head? heq))
  cases hprev : c.lruPrev s with
  | none =>
    cases hnext : c.lruNext s with
    | none | some => simpa [lruUnlink, hprev, hnext, Dll.bypass] using hu
  | some p =>
    have hps : s ≠ p := by rintro rfl; exact hp hprev
    cases hnext : c.lruNext s with
    | none | some => simpa [lruUnlink, hprev, hnext, Dll.bypass, update_of_ne hps] using hu

theorem lruPushFront_dll
    (h : Dll c.lruNext c.lruPrev c.lruHead c.lruTail l) (hnd : l.Nodup) (hs : s ∉ l) :
    Dll (c.lruPushFront s).lruNext (c.lruPushFront s).lruPrev (c.lruPushFront s).lruHead
      (c.lruPushFront s).lruTail (s :: l) := by
  have hu := h.push_front hnd hs
  cases hhead : c.lruHead <;> cases htail : c.lruTail <;>
    simpa [lruPushFront, hhead, htail, Dll.bypass] using hu

theorem lruPushBack_dll
    (h : Dll c.lruNext c.lruPrev c.lruHead c.lruTail l) (hnd : l.Nodup) (hs : s ∉ l) :
    Dll (c.lruPushBack s).lruNext (c.lruPushBack s).lruPrev (c.lruPushBack s).lruHead
      (c.lruPushBack s).lruTail (l ++ [s]) := by
  have hu := h.push_back hnd hs
  cases hhead : c.lruHead <;> cases htail : c.lruTail <;>
    simpa [lruPushBack, hhead, htail, Dll.bypass] using hu

/-- A slot of the cache sits somewhere in the LRU list; removing it leaves the others. -/
theorem LruOk.split (h : c.LruOk) (hs : s < c.nslots) :
    ∃ l₁ l₂, Dll c.lruNext c.lruPrev c.lruHead c.lruTail (l₁ ++ s :: l₂) ∧
      (l₁ ++ s :: l₂).Nodup ∧ (s :: (l₁ ++ l₂)).Perm (List.range c.nslots) := by
  obtain ⟨l, hd, hperm⟩ := h
  have hmem : s ∈ l := hperm.mem_iff.mpr (mem_range.mpr hs)
  obtain ⟨l₁, l₂, rfl⟩ := append_of_mem hmem
  exact ⟨l₁, l₂, hd, hperm.nodup_iff.mpr nodup_range, (perm_middle.symm).trans hperm⟩

theorem LruOk.touch (h : c.LruOk) (hs : s < c.nslots) : (c.lruTouch s).LruOk := by
  by_cases hhead : c.lruHead = some s
  · simpa [lruTouch, hhead] using h
  obtain ⟨l1, l2, hd, hnd, hperm⟩ := h.split hs
  obtain ⟨hs', hnd'⟩ := nodup_cons.mp (nodup_middle.mp hnd)
  refine ⟨s :: (l1 ++ l2), ?_, ?_⟩
  · simpa [lruTouch, hhead] using lruPushFront_dll (lruUnlink_dll hd hnd) hnd' hs'
  · rw [(lruTouch_same c s).nslots]
    exact hperm

theorem LruOk.toBack (h : c.LruOk) (hs : s < c.nslots) : ((c.lruUnlink s).lruPushBack s).LruOk := by
  obtain ⟨l1, l2, hd, hnd, hperm⟩ := h.split hs
  obtain ⟨hs', hnd'⟩ := nodup_cons.mp (nodup_middle.mp hnd)
  refine ⟨l1 ++ l2 ++ [s], lruPushBack_dll (lruUnlink_dll hd hnd) hnd' hs', ?_⟩
  rw [((lruUnlink_same c s).trans (lruPushBack_same _ s)).nslots]
  exact perm_append_comm.trans hperm

theorem LruOk.tail_lt (h : c.LruOk) (hpos : 0 < c.nslots) :
    ∃ s, c.lruTail = some s ∧ s < c.nslots := by
  obtain ⟨l, hd, hperm⟩ := h
  have hlen : l.length = c.nslots := by simpa using hperm.length_eq
  have hne : l ≠ [] := by
    rintro rfl
    simp at hlen
    omega
  refine ⟨l.getLast hne, ?_, ?_⟩
  · rw [hd.tail_eq, getLast?_eq_getLast_of_ne_nil hne]
  · exact mem_range.mp (hperm.mem_iff.mp (getLast_mem hne))

theorem LruOk.of_same (h : c.LruOk) (hp : c'.lruPrev = c.lruPrev)
    (hn : c'.lruNext = c.lruNext) (hh : c'.lruHead = c.lruHead) (ht : c'.lruTail = c.lruTail)
    (hs : c'.nslots = c.nslots) : c'.LruOk := by
  unfold LruOk
  rw [hp, hn, hh, ht, hs]
  exact h

/-! ## The hash chains -/

/-- A chain is no longer than the slot array, so `nslots` bounds every walk. -/
theorem chain_length_le {n : Nat} (hnd : l.Nodup) (hlt : ∀ s ∈ l, s < n) : l.length ≤ n := by
  have hsub : l.Subperm (range n) :=
    hnd.subperm (fun s hs => mem_range.mpr (hlt s hs))
  simpa using hsub.length_le

/-- `Hashed` reads the chains, the bucket mask and the block numbers, nothing else. -/
theorem Hashed.congr {H' : Nat → Prop} (h : c.Hashed H)
    (hn : c'.hashNext = c.hashNext) (hb : c'.buckets = c.buckets)
    (hm : c'.nbuckets = c.nbuckets) (hH : ∀ s, H' s ↔ H s)
    (hblk : ∀ s, H s → (c'.slots s).blk = (c.slots s).blk) : c'.Hashed H' := by
  intro b
  obtain ⟨l, hseg, hnd, hmem⟩ := h b
  refine ⟨l, by rw [hn, hb]; exact hseg, hnd, fun s => ?_⟩
  rw [hmem s, hH s]
  constructor
  · rintro ⟨hs, rfl⟩
    exact ⟨hs, by rw [hblk s hs]; unfold bucketOf; rw [hm]⟩
  · rintro ⟨hs, hb'⟩
    rw [hblk s hs] at hb'
    unfold bucketOf at hb' ⊢
    rw [hm] at hb'
    exact ⟨hs, hb'⟩

theorem Hashed.insert (h : c.Hashed H) (hs : ¬ H s) :
    (c.hashInsert s).Hashed fun t => H t ∨ t = s := by
  intro b
  obtain ⟨l, hseg, hnd, hmem⟩ := h b
  have hsl : s ∉ l := fun hmem' => hs ((hmem s).mp hmem').1
  by_cases hb : b = c.bucketOf (c.slots s).blk
  · subst hb
    refine ⟨s :: l, ?_, nodup_cons.mpr ⟨hsl, hnd⟩, fun t => ?_⟩
    · refine ⟨by simp [hashInsert], ?_⟩
      simp only [hashInsert, update_self]
      exact hseg.update_of_notMem hsl _
    · rw [mem_cons, hmem t]
      constructor
      · rintro (rfl | ⟨ht, hbt⟩)
        · exact ⟨.inr rfl, rfl⟩
        · exact ⟨.inl ht, hbt⟩
      · rintro ⟨ht | rfl, hbt⟩
        · exact .inr ⟨ht, hbt⟩
        · exact .inl rfl
  · refine ⟨l, ?_, hnd, fun t => ?_⟩
    · simp only [hashInsert, update_of_ne hb]
      exact hseg.update_of_notMem hsl _
    · rw [hmem t]
      constructor
      · rintro ⟨ht, hbt⟩
        exact ⟨.inl ht, hbt⟩
      · rintro ⟨ht | rfl, hbt⟩
        · exact ⟨ht, hbt⟩
        · exact absurd hbt.symm hb

/-- The walk of `hash_remove` past the head redirects the predecessor of `s`, found after
`l₁.length` links. -/
theorem hashRemoveAfter_eq (l₂ : List Nat) :
    ∀ (l₁ : List Nat) (p : Nat) (fuel : Nat), l₁.length < fuel →
      Seg c.hashNext (some p) (p :: l₁ ++ s :: l₂) none → s ∉ l₁ →
      c.hashRemoveAfter fuel p s =
        { c with hashNext :=
            update c.hashNext ((p :: l₁).getLast (by simp)) (c.hashNext s) }
  | [], p, fuel + 1, _, hseg, _ => by
    have hp : c.hashNext p = some s := hseg.2.1
    simp [hashRemoveAfter, hp]
  | q :: l₁, p, fuel + 1, hfuel, hseg, hs => by
    have hp : c.hashNext p = some q := hseg.2.1
    have hqs : q ≠ s := fun heq => hs (by simp [heq])
    have hseg' : Seg c.hashNext (some q) (q :: l₁ ++ s :: l₂) none := by
      have := hseg.2
      rw [hp] at this
      exact this
    have ih := hashRemoveAfter_eq l₂ l₁ q fuel (by simpa using hfuel) hseg'
      (fun hmem => hs (mem_cons_of_mem q hmem))
    simp only [hashRemoveAfter, hp, hqs, if_false, ih]
    simp

/-- What `hash_remove` leaves of the cache: everything but the chains. -/
structure SameButHash (c c' : Bcache) : Prop where
  blockSize : c'.blockSize = c.blockSize
  spb : c'.spb = c.spb
  nslots : c'.nslots = c.nslots
  slots : c'.slots = c.slots
  nbuckets : c'.nbuckets = c.nbuckets
  lruPrev : c'.lruPrev = c.lruPrev
  lruNext : c'.lruNext = c.lruNext
  lruHead : c'.lruHead = c.lruHead
  lruTail : c'.lruTail = c.lruTail

theorem hashRemoveAfter_same (c : Bcache) (s : Nat) :
    ∀ (fuel p : Nat), SameButHash c (c.hashRemoveAfter fuel p s)
  | 0, _ => by constructor <;> rfl
  | fuel + 1, p => by
    unfold hashRemoveAfter
    split
    · constructor <;> rfl
    · split
      · constructor <;> rfl
      · exact hashRemoveAfter_same c s fuel _

theorem hashRemove_same (c : Bcache) (s : Nat) : SameButHash c (c.hashRemove s) := by
  unfold hashRemove
  dsimp only
  split
  · constructor <;> rfl
  · split
    · constructor <;> rfl
    · obtain ⟨h1, h2, h3, h4, h5, h6, h7, h8, h9⟩ := hashRemoveAfter_same c s c.nslots ‹_›
      exact ⟨h1, h2, h3, h4, h5, h6, h7, h8, h9⟩

theorem hashInsert_same (c : Bcache) (s : Nat) : SameButHash c (c.hashInsert s) := by
  constructor <;> rfl

/-- `hash_remove` takes `s` out of its chain. Outside the bucket of `s` nothing moves: the stores
go to nodes of that chain and to its head. -/
theorem hashRemove_chain (hseg : Seg c.hashNext (c.buckets (c.bucketOf (c.slots s).blk)) l none)
    (hnd : l.Nodup) (hlen : l.length ≤ c.nslots) (hs : s ∈ l) :
    Seg (c.hashRemove s).hashNext ((c.hashRemove s).buckets (c.bucketOf (c.slots s).blk))
        (l.erase s) none ∧
      (∀ t, t ∉ l → (c.hashRemove s).hashNext t = c.hashNext t) ∧
      ∀ b, b ≠ c.bucketOf (c.slots s).blk → (c.hashRemove s).buckets b = c.buckets b := by
  obtain ⟨l1, l2, rfl⟩ := append_of_mem hs
  obtain ⟨hs', _⟩ := nodup_cons.mp (nodup_middle.mp hnd)
  have hs1 : s ∉ l1 := fun h => hs' (mem_append_left _ h)
  have herase : (l1 ++ s :: l2).erase s = l1 ++ l2 := by
    rw [erase_append_right _ hs1, erase_cons_head]
  rw [herase]
  cases l1 with
  | nil =>
    have hhead : c.buckets (c.bucketOf (c.slots s).blk) = some s := hseg.1
    refine ⟨?_, fun t ht => ?_, fun b hb => ?_⟩
    · have h2 : Seg c.hashNext (c.hashNext s) l2 none := hseg.2
      simp only [hashRemove, hhead, if_true, update_self, nil_append]
      exact h2.update_of_notMem (by simpa using hs') none
    · have hts : t ≠ s := fun heq => ht (by simp [heq])
      simp [hashRemove, hhead, update_of_ne hts]
    · simp [hashRemove, hhead, update_of_ne hb]
  | cons p k =>
    have hhead : c.buckets (c.bucketOf (c.slots s).blk) = some p := hseg.1
    have hps : p ≠ s := fun heq => hs1 (by simp [heq])
    have hrem := hashRemoveAfter_eq (c := c) (s := s) l2 k p c.nslots
      (by simp at hlen; omega) (by rw [hhead] at hseg; exact hseg)
      (fun h => hs1 (mem_cons_of_mem p h))
    simp only [hashRemove, hhead, hps, if_false, hrem]
    refine ⟨?_, fun t ht => ?_, fun _ _ => trivial⟩
    · refine Seg.update_of_notMem ?_ hs' none
      -- the chain around the predecessor, the last node of `p :: k`
      have hsplit : p :: k = (p :: k).dropLast ++ [(p :: k).getLast (by simp)] :=
        (dropLast_append_getLast (by simp)).symm
      have hlist : (p :: k).dropLast ++ (p :: k).getLast (by simp) :: s :: l2 =
          p :: k ++ s :: l2 := by
        rw [append_cons, ← hsplit]
      have hdrop := Seg.drop_after (hlist ▸ hseg) (hlist ▸ hnd)
      rw [append_cons, ← hsplit, hhead] at hdrop
      exact hdrop
    · have hts : t ≠ s := fun heq => ht (by simp [heq])
      have htl : t ≠ (p :: k).getLast (by simp) := by
        intro heq
        exact ht (mem_append_left _ (heq ▸ getLast_mem _))
      rw [update_of_ne hts, update_of_ne htl]

theorem Hashed.remove (h : c.Hashed H) (hlt : ∀ s, H s → s < c.nslots) (hs : H s) :
    (c.hashRemove s).Hashed fun t => H t ∧ t ≠ s := by
  obtain ⟨l, hseg, hnd, hmem⟩ := h (c.bucketOf (c.slots s).blk)
  have hsl : s ∈ l := (hmem s).mpr ⟨hs, rfl⟩
  have hlen : l.length ≤ c.nslots := chain_length_le hnd fun t ht => hlt t ((hmem t).mp ht).1
  obtain ⟨hchain, hnext, hbuckets⟩ := hashRemove_chain hseg hnd hlen hsl
  have hslots := (hashRemove_same c s).slots
  have hmask := (hashRemove_same c s).nbuckets
  intro b
  by_cases hb : b = c.bucketOf (c.slots s).blk
  · subst hb
    refine ⟨l.erase s, hchain, hnd.erase s, fun t => ?_⟩
    rw [hnd.mem_erase_iff, hmem t, hslots]
    unfold bucketOf
    rw [hmask]
    constructor
    · rintro ⟨hts, ht, hbt⟩
      exact ⟨⟨ht, hts⟩, hbt⟩
    · rintro ⟨⟨ht, hts⟩, hbt⟩
      exact ⟨hts, ht, hbt⟩
  · obtain ⟨k, hsegk, hndk, hmemk⟩ := h b
    have hdisj : ∀ t ∈ k, t ∉ l := by
      intro t htk htl
      exact hb (((hmemk t).mp htk).2.symm.trans ((hmem t).mp htl).2)
    refine ⟨k, ?_, hndk, fun t => ?_⟩
    · rw [hbuckets b hb]
      exact hsegk.congr fun t ht => hnext t (hdisj t ht)
    · rw [hmemk t, hslots]
      unfold bucketOf
      rw [hmask]
      constructor
      · rintro ⟨ht, hbt⟩
        refine ⟨⟨ht, ?_⟩, hbt⟩
        rintro rfl
        exact hb hbt.symm
      · rintro ⟨⟨ht, _⟩, hbt⟩
        exact ⟨ht, hbt⟩

/-! ## Lookup -/

/-- The chain walk of `lookup` finds the first slot of the chain that holds the block. -/
theorem lookupFrom_eq (c : Bcache) (blk : Nat) :
    ∀ (l : List Nat) (p : Option Nat) (fuel : Nat), l.length ≤ fuel → Seg c.hashNext p l none →
      c.lookupFrom blk fuel p =
        l.find? fun s => (c.slots s).valid && (c.slots s).blk == blk
  | [], p, fuel, _, hseg => by
    obtain rfl : p = none := hseg
    cases fuel <;> rfl
  | s :: l, p, fuel + 1, hfuel, hseg => by
    obtain ⟨rfl, hrest⟩ := hseg
    have ih := lookupFrom_eq c blk l (c.hashNext s) fuel (by simpa using hfuel) hrest
    rw [lookupFrom, find?_cons, ih]
    cases (c.slots s).valid && (c.slots s).blk == blk <;> rfl

theorem Wf.lookup_eq_some (h : c.Wf) {blk : Nat} :
    c.lookup blk = some s ↔ c.Resident s ∧ (c.slots s).blk = blk := by
  obtain ⟨l, hseg, hnd, hmem⟩ := h.hash (c.bucketOf blk)
  have hlen : l.length ≤ c.nslots := chain_length_le hnd fun t ht => ((hmem t).mp ht).1.1
  unfold lookup
  rw [lookupFrom_eq c blk l _ _ hlen hseg]
  constructor
  · intro hfind
    have hs := find?_some hfind
    have hsl := mem_of_find?_eq_some hfind
    simp only [Bool.and_eq_true, beq_iff_eq] at hs
    exact ⟨((hmem s).mp hsl).1, hs.2⟩
  · rintro ⟨hs, rfl⟩
    have hsl : s ∈ l := (hmem s).mpr ⟨hs, rfl⟩
    -- some slot is found, and it can only be `s`
    cases hfind : l.find? fun t => (c.slots t).valid && (c.slots t).blk == (c.slots s).blk with
    | none =>
      have := find?_eq_none.mp hfind s hsl
      simp [hs.2] at this
    | some t =>
      have ht := find?_some hfind
      have htl := mem_of_find?_eq_some hfind
      simp only [Bool.and_eq_true, beq_iff_eq] at ht
      rw [h.unique t s ((hmem t).mp htl).1 hs ht.2]

theorem Wf.lookup_eq_none (h : c.Wf) {blk : Nat} :
    c.lookup blk = none ↔ ∀ s, c.Resident s → (c.slots s).blk ≠ blk := by
  constructor
  · intro hnone s hs hblk
    rw [h.lookup_eq_some.mpr ⟨hs, hblk⟩] at hnone
    cases hnone
  · intro hall
    cases hl : c.lookup blk with
    | none => rfl
    | some s =>
      obtain ⟨hs, hblk⟩ := h.lookup_eq_some.mp hl
      exact absurd hblk (hall s hs)

/-! ## Slot updates -/

@[simp] theorem setSlot_self (c : Bcache) (s : Nat) (v : Slot) : (c.setSlot s v).slots s = v := by
  simp [setSlot]

@[simp] theorem setSlot_of_ne (c : Bcache) {t : Nat} (h : t ≠ s) (v : Slot) :
    (c.setSlot s v).slots t = c.slots t := by
  simp [setSlot, update_of_ne h]

/-- Invariance under any change that keeps the links, the sizes and, for every slot, its
block and validity: a hit counter, a dirty bit, new data. -/
theorem Wf.of_same (h : c.Wf) (hbs : c'.blockSize = c.blockSize)
    (hspb : c'.spb = c.spb) (hn : c'.nslots = c.nslots)
    (hslots : ∀ s, (c'.slots s).blk = (c.slots s).blk ∧ (c'.slots s).valid = (c.slots s).valid)
    (hlru : c'.LruOk) (hnext : c'.hashNext = c.hashNext) (hb : c'.buckets = c.buckets)
    (hm : c'.nbuckets = c.nbuckets) : c'.Wf := by
  have hres : ∀ s, c'.Resident s ↔ c.Resident s := fun s => by
    unfold Resident
    rw [hn, (hslots s).2]
  refine ⟨hn ▸ h.pos, hspb ▸ h.spb_pos, ?_, hlru, ?_, ?_⟩
  · rw [hbs, hspb, h.blockSize_eq]
  · exact h.hash.congr hnext hb hm hres fun s _ => (hslots s).1
  · intro s t hs ht heq
    rw [(hslots s).1, (hslots t).1] at heq
    exact h.unique s t ((hres s).mp hs) ((hres t).mp ht) heq

theorem Wf.touch (h : c.Wf) (hs : s < c.nslots) : (c.lruTouch s).Wf := by
  have hsame := lruTouch_same c s
  exact h.of_same hsame.blockSize hsame.spb hsame.nslots
    (fun t => by rw [hsame.slots]; exact ⟨rfl, rfl⟩) (h.lru.touch hs) hsame.hashNext
    hsame.buckets hsame.nbuckets

theorem Wf.toBack (h : c.Wf) (hs : s < c.nslots) : ((c.lruUnlink s).lruPushBack s).Wf := by
  have hsame := (lruUnlink_same c s).trans (lruPushBack_same _ s)
  exact h.of_same hsame.blockSize hsame.spb hsame.nslots
    (fun t => by rw [hsame.slots]; exact ⟨rfl, rfl⟩) (h.lru.toBack hs) hsame.hashNext
    hsame.buckets hsame.nbuckets

theorem Wf.setSlot (h : c.Wf)
    (hblk : v.blk = (c.slots s).blk) (hvalid : v.valid = (c.slots s).valid) :
    (c.setSlot s v).Wf := by
  refine h.of_same rfl rfl rfl (fun t => ?_) h.lru rfl rfl rfl
  by_cases ht : t = s
  · subst ht
    simp [hblk, hvalid]
  · simp [ht]

theorem Wf.withStats (h : c.Wf) (stats : BcacheStats) : Wf { c with stats } :=
  ⟨h.pos, h.spb_pos, h.blockSize_eq, h.lru, h.hash, h.unique⟩

theorem Claimed.fill {blk : Nat} (h : c.Claimed s blk)
    (hblk : v.blk = blk) (hvalid : v.valid = true) : (c.setSlot s v).Wf := by
  have hres : ∀ t, (c.setSlot s v).Resident t ↔ c.Resident t ∨ t = s := by
    intro t
    unfold Resident
    by_cases ht : t = s
    · subst ht
      simp [hvalid, Bcache.setSlot, h.lt]
    · simp [ht, Bcache.setSlot]
  have hslot : ∀ t, ((c.setSlot s v).slots t).blk = (c.slots t).blk := by
    intro t
    by_cases ht : t = s
    · subst ht
      simp [hblk, h.blk_eq]
    · simp [ht]
  refine ⟨Nat.lt_of_le_of_lt (Nat.zero_le s) h.lt, h.spb_pos, h.blockSize_eq, h.lru, ?_, ?_⟩
  · exact h.hash.congr rfl rfl rfl hres fun t _ => hslot t
  · intro t u ht hu heq
    rw [hslot, hslot] at heq
    rcases (hres t).mp ht with ht' | rfl <;> rcases (hres u).mp hu with hu' | rfl
    · exact h.unique t u ht' hu' heq
    · exact absurd (heq.trans h.blk_eq) (h.fresh t ht')
    · exact absurd (heq.symm.trans h.blk_eq) (h.fresh u hu')
    · rfl

/-- Dropping a hashed slot that is not (or no longer) valid restores the invariant. -/
theorem Wf.of_hashRemove (hpos : 0 < c.spb) (hbs : c.blockSize = c.spb * 512) (hlru : c.LruOk)
    (hhash : c.Hashed fun t => c.Resident t ∨ t = s) (hu : c.Unique) (hs : s < c.nslots)
    (hvalid : v.valid = false) : ((c.hashRemove s).setSlot s v).Wf := by
  have hsame := hashRemove_same c s
  have hrem := hhash.remove (s := s) (fun t ht => ht.elim (·.1) (fun h => h ▸ hs)) (.inr rfl)
  have hres : ∀ t, ((c.hashRemove s).setSlot s v).Resident t ↔ c.Resident t ∧ t ≠ s := by
    intro t
    unfold Resident
    by_cases ht : t = s
    · subst ht
      simp [hvalid, Bcache.setSlot]
    · simp [ht, Bcache.setSlot, hsame.slots, hsame.nslots]
  have hslot : ∀ t, t ≠ s → ((c.hashRemove s).setSlot s v).slots t = c.slots t := by
    intro t ht
    rw [setSlot_of_ne _ ht, hsame.slots]
  refine ⟨?_, ?_, ?_, ?_, ?_, ?_⟩
  · show 0 < (c.hashRemove s).nslots
    rw [hsame.nslots]
    omega
  · show 0 < (c.hashRemove s).spb
    rw [hsame.spb]
    exact hpos
  · show (c.hashRemove s).blockSize = (c.hashRemove s).spb * 512
    rw [hsame.blockSize, hsame.spb, hbs]
  · exact hlru.of_same hsame.lruPrev hsame.lruNext hsame.lruHead hsame.lruTail hsame.nslots
  · refine hrem.congr rfl rfl rfl (fun t => ?_) (fun t ht => ?_)
    · rw [hres t]
      constructor
      · rintro ⟨ht, hts⟩
        exact ⟨.inl ht, hts⟩
      · rintro ⟨ht | rfl, hts⟩
        · exact ⟨ht, hts⟩
        · exact absurd rfl hts
    · rw [setSlot_of_ne _ ht.2]
  · intro t u ht hu' heq
    obtain ⟨ht, hts⟩ := (hres t).mp ht
    obtain ⟨hu', hus⟩ := (hres u).mp hu'
    rw [hslot t hts, hslot u hus] at heq
    exact hu t u ht hu' heq

theorem Wf.drop (h : c.Wf) (hs : c.Resident s)
    (hvalid : v.valid = false) : ((c.hashRemove s).setSlot s v).Wf := by
  refine Wf.of_hashRemove h.spb_pos h.blockSize_eq h.lru ?_ h.unique hs.1 hvalid
  refine h.hash.congr rfl rfl rfl (fun t => ?_) fun _ _ => rfl
  constructor
  · rintro (ht | rfl)
    · exact ht
    · exact hs
  · exact .inl

end Bcache

end JuampiOs
