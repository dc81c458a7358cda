import Mathlib.Data.List.Nodup
import Mathlib.Data.List.Perm.Subperm
import Mathlib.Algebra.Group.Nat.Defs

/-!
# The frame allocator

`src/frames.c` over the bitmap of `src/bitset.c`. The bitmap lies in the first frames of the region it
manages, over whatever the memory held; a run allocates frames and frees the ones it has.
-/

namespace JuampiOs.Memory

open Function List

/-! ## The bitmap -/

/-- A `struct bitset`: the words from `start` on, and how many there are. -/
structure Bitset where
  start : Nat → BitVec 32
  size : Nat

/-- `memset(start, 0, n)` on words of four bytes. -/
def zeroBytes (m : Nat → BitVec 32) (n : Nat) : Nat → BitVec 32 := fun i =>
  if 4 * (i + 1) ≤ n then 0
  else if n ≤ 4 * i then m i
  else m i &&& (BitVec.allOnes 32 <<< (8 * (n - 4 * i)))

/-- `bitset_init` over the words `m`: the bits past `size` in the last word are marked used. -/
def bitsetInit (m : Nat → BitVec 32) (size : Nat) : Bitset where
  start := if size % 32 ≠ 0 then
      update (zeroBytes m (size / 8)) (size / 32) (~~~((1#32 <<< (size % 32)) - 1))
    else zeroBytes m (size / 8)
  size := (size + 31) % 2 ^ 32 / 32

def Bitset.set (b : Bitset) (index : Nat) : Bitset :=
  if 32 * b.size ≤ index then b
  else
    let word := b.start (index / 32) ||| (1#32 <<< (index % 32))
    { b with start := update b.start (index / 32) word }

def Bitset.clear (b : Bitset) (index : Nat) : Bitset :=
  if 32 * b.size ≤ index then b
  else
    let word := b.start (index / 32) &&& ~~~(1#32 <<< (index % 32))
    { b with start := update b.start (index / 32) word }

/-- The first clear bit; `none` is `(uint32_t)-1`. -/
def Bitset.search (b : Bitset) : Option Nat :=
  (range b.size).findSome? fun i =>
    if b.start i ≠ 0xFFFFFFFF then
      ((range 32).find? fun bit => b.start i &&& (1#32 <<< bit) = 0).map (i * 32 + ·)
    else none

namespace Bitset

variable {b : Bitset} {i j : Nat}

def bit (b : Bitset) (i : Nat) : Bool := (b.start (i / 32)).getLsbD (i % 32)

theorem getLsbD_one_shift {k j : Nat} (hk : k < 32) : (1#32 <<< k).getLsbD j = decide (j = k) := by
  rw [BitVec.getLsbD_shiftLeft, BitVec.getLsbD_one]
  by_cases h : j = k
  · simp [h, hk]
  · simp [h]
    omega

@[simp] theorem size_set : (b.set i).size = b.size := by
  unfold set
  split <;> rfl

@[simp] theorem size_clear : (b.clear i).size = b.size := by
  unfold clear
  split <;> rfl

theorem bit_set (hi : i < 32 * b.size) (j : Nat) : (b.set i).bit j =
    (b.bit j || decide (j = i)) := by
  have hmod := Nat.mod_lt i (show 0 < 32 by decide)
  unfold set bit
  rw [if_neg (by omega)]
  dsimp only
  by_cases hw : j / 32 = i / 32
  · rw [hw, update_self, BitVec.getLsbD_or, getLsbD_one_shift hmod]
    congr 1
    exact decide_eq_decide.mpr (by omega)
  · have hne : j ≠ i := fun h => hw (by rw [h])
    rw [update_of_ne hw]
    simp [hne]

theorem bit_clear (hi : i < 32 * b.size) (j : Nat) :
    (b.clear i).bit j = (b.bit j && !decide (j = i)) := by
  have hmod := Nat.mod_lt i (show 0 < 32 by decide)
  unfold clear bit
  rw [if_neg (by omega)]
  dsimp only
  by_cases hw : j / 32 = i / 32
  · have hjmod := Nat.mod_lt j (show 0 < 32 by decide)
    rw [hw, update_self, BitVec.getLsbD_and, BitVec.getLsbD_not, getLsbD_one_shift hmod]
    have hiff : (j % 32 = i % 32) ↔ j = i := by omega
    simp [hjmod, hiff]
  · have hne : j ≠ i := fun h => hw (by rw [h])
    rw [update_of_ne hw]
    simp [hne]

theorem and_one_shift {w : BitVec 32} {k : Nat} (hk : k < 32) :
    w &&& (1#32 <<< k) = 0 ↔ w.getLsbD k = false := by
  constructor
  · intro h
    have := congrArg (BitVec.getLsbD · k) h
    simpa [getLsbD_one_shift hk] using this
  · intro h
    refine BitVec.eq_of_getLsbD_eq fun j _ => ?_
    rw [BitVec.getLsbD_and, getLsbD_one_shift hk]
    by_cases hj : j = k
    · simp [hj, h]
    · simp [hj]

theorem search_some (h : b.search = some i) : i < 32 * b.size ∧ b.bit i = false := by
  obtain ⟨w, hw, hfound⟩ := exists_of_findSome?_eq_some h
  have hw := mem_range.mp hw
  split at hfound
  swap
  · cases hfound
  obtain ⟨k, hk, rfl⟩ := Option.map_eq_some_iff.mp hfound
  have hlt := mem_range.mp (mem_of_find?_eq_some hk)
  have hclear := find?_some hk
  rw [decide_eq_true_iff, and_one_shift hlt] at hclear
  refine ⟨by omega, ?_⟩
  unfold bit
  rw [show (w * 32 + k) / 32 = w by omega, show (w * 32 + k) % 32 = k by omega]
  exact hclear

theorem search_none (h : b.search = none) (hi : i < 32 * b.size) : b.bit i = true := by
  have hmod := Nat.mod_lt i (show 0 < 32 by decide)
  have hword := findSome?_eq_none_iff.mp h (i / 32) (mem_range.mpr (by omega))
  unfold bit
  split at hword
  · -- a word that is not full has a clear bit
    rw [Option.map_eq_none_iff, find?_eq_none] at hword
    have := hword (i % 32) (mem_range.mpr hmod)
    rw [decide_eq_true_iff, and_one_shift hmod, Bool.not_eq_false] at this
    exact this
  · rename_i hfull
    rw [not_not.mp hfull]
    exact (BitVec.getLsbD_allOnes (v := 32)).trans (decide_eq_true hmod)

/-- A fresh bitmap has the bits below its size clear, and those past it set. -/
theorem bit_init (m : Nat → BitVec 32) {size : Nat} (hsize : size < 2 ^ 31)
    (hi : i < 32 * (bitsetInit m size).size) : (bitsetInit m size).bit i = decide (size ≤ i) := by
  have hwords : (bitsetInit m size).size = (size + 31) / 32 := by
    show (size + 31) % 2 ^ 32 / 32 = _
    rw [Nat.mod_eq_of_lt (by omega)]
  rw [hwords] at hi
  have hzero : i / 32 < size / 32 → zeroBytes m (size / 8) (i / 32) = 0 := fun hlt =>
    if_pos (by omega)
  have hlast : ∀ k, k < 32 → (~~~((1#32 <<< k) - 1)).getLsbD (i % 32) = decide (k ≤ i % 32) := by
    have hmod := Nat.mod_lt i (show 0 < 32 by decide)
    generalize i % 32 = j at hmod
    decide +revert +kernel
  show ((if size % 32 ≠ 0 then _ else _ : Nat → BitVec 32) (i / 32)).getLsbD _ = _
  split
  · by_cases hw : i / 32 = size / 32
    · rw [hw, update_self, hlast _ (Nat.mod_lt _ (by decide))]
      exact decide_eq_decide.mpr (by omega)
    · rw [update_of_ne hw, hzero (by omega)]
      simp
      omega
  · rw [hzero (by omega)]
    simp
    omega

end Bitset

/-! ## Frames -/

/-- The static state of `src/frames.c`. -/
structure Frames where
  b : Bitset
  /-- physical base of the managed region -/
  memStart : Nat
  /-- free frames -/
  totalCount : Nat
  /-- usable frames -/
  managedCount : Nat

/-- `frames_init` over the words `m` of the region. -/
def framesInit (m : Nat → BitVec 32) (physBase len : Nat) : Frames :=
  let base := (physBase + 0xFFF) % 2 ^ 64 / 0x1000 * 0x1000
  let frames := len / 0x1000 % 2 ^ 32
  let b := bitsetInit m frames
  let needed := (4 * b.size + 0xFFF) / 0x1000
  { b := (range needed).foldl Bitset.set b
    memStart := base
    totalCount := (2 ^ 32 + frames - needed) % 2 ^ 32
    managedCount := (2 ^ 32 + frames - needed) % 2 ^ 32 }

def framesTotal (s : Frames) : Nat := s.managedCount

def framesAvailable (s : Frames) : Nat := s.totalCount

/-- `frame_alloc`; `none` is its panic. -/
def frameAlloc (s : Frames) : Option (Nat × Frames) :=
  s.b.search.map fun offset =>
    ((s.memStart + 0x1000 * offset) % 2 ^ 64,
      { s with b := s.b.set offset, totalCount := (s.totalCount + 2 ^ 32 - 1) % 2 ^ 32 })

/-- `frame_free`; `none` is its panic. -/
def frameFree (s : Frames) (frame : Nat) : Option Frames :=
  if frame < s.memStart then none
  else some { s with
    b := s.b.clear ((frame - s.memStart) / 0x1000 % 2 ^ 32)
    totalCount := (s.totalCount + 1) % 2 ^ 32 }

/-- The frames that hold the bitmap of `frames` frames. -/
def needed (frames : Nat) : Nat := (4 * ((frames + 31) / 32) + 0xFFF) / 0x1000

/-- The states of the runs over a region, with the frames that are outstanding. -/
inductive Reached (base len : Nat) : Frames → List Nat → Prop where
  | init (m : Nat → BitVec 32) : Reached base len (framesInit m base len) []
  | alloc {s s' : Frames} {out : List Nat} {p : Nat} (h : Reached base len s out)
      (hp : frameAlloc s = some (p, s')) : Reached base len s' (p :: out)
  | free {s s' : Frames} {out : List Nat} {p : Nat} (h : Reached base len s out) (hp : p ∈ out)
      (hs : frameFree s p = some s') : Reached base len s' (out.erase p)

/-- The bits that are set are those of the bitmap's own frames, of the frames past the end and of the
outstanding ones. -/
structure Inv (base frames : Nat) (s : Frames) (out : List Nat) : Prop where
  start : s.memStart = base
  size : s.b.size = (frames + 31) / 32
  managed : s.managedCount = frames - needed frames
  bits : ∀ i, i < 32 * s.b.size →
    (s.b.bit i = true ↔ i < needed frames ∨ frames ≤ i ∨ base + 0x1000 * i ∈ out)
  owned : ∀ p ∈ out, ∃ i, needed frames ≤ i ∧ i < frames ∧ p = base + 0x1000 * i
  nodup : out.Nodup
  count : s.totalCount + out.length = frames - needed frames

section

variable {base len frames p : Nat} {s s' : Frames} {out : List Nat}

theorem foldl_set (b : Bitset) (n : Nat) (hn : n ≤ 32 * b.size) :
    ((range n).foldl Bitset.set b).size = b.size ∧
      ∀ j, ((range n).foldl Bitset.set b).bit j = (b.bit j || decide (j < n)) := by
  induction n with
  | zero => exact ⟨rfl, fun j => by simp⟩
  | succ n ih =>
    obtain ⟨hsize, hbit⟩ := ih (by omega)
    rw [range_succ, foldl_append]
    refine ⟨by simpa using hsize, fun j => ?_⟩
    rw [foldl_cons, foldl_nil, Bitset.bit_set (by omega), hbit, Bool.or_assoc, ← Bool.decide_or]
    congr 1
    exact decide_eq_decide.mpr (by omega)

theorem inv_init (m : Nat → BitVec 32) (hbase : 0x1000 ∣ base) (hend : base + len ≤ 2 ^ 64)
    (hpos : 0x1000 ≤ len) (hlen : len / 0x1000 < 2 ^ 31) :
    Inv base (len / 0x1000) (framesInit m base len) [] := by
  have hframes : len / 0x1000 % 2 ^ 32 = len / 0x1000 := Nat.mod_eq_of_lt (by omega)
  unfold framesInit
  rw [hframes]
  generalize hf : len / 0x1000 = frames at hlen
  have hone : 1 ≤ frames := by omega
  have hwords : (bitsetInit m frames).size = (frames + 31) / 32 := by
    show (frames + 31) % 2 ^ 32 / 32 = _
    rw [Nat.mod_eq_of_lt (by omega)]
  have hneed : needed frames ≤ frames := by
    unfold needed
    omega
  obtain ⟨hsize, hbit⟩ := foldl_set (bitsetInit m frames) (needed frames) (by rw [hwords]; omega)
  have hcount : (2 ^ 32 + frames - needed frames) % 2 ^ 32 = frames - needed frames := by omega
  dsimp only
  rw [hwords]
  change Inv base frames ⟨(range (needed frames)).foldl _ _, _, (2 ^ 32 + frames - needed frames) %
    2 ^ 32, (2 ^ 32 + frames - needed frames) % 2 ^ 32⟩ []
  rw [hcount]
  refine ⟨?_, hsize.trans hwords, rfl, fun i hi => ?_, by simp, nodup_nil, rfl⟩
  · obtain ⟨k, rfl⟩ := hbase
    show (0x1000 * k + 0xFFF) % 2 ^ 64 / 0x1000 * 0x1000 = 0x1000 * k
    omega
  · rw [hsize] at hi
    rw [hbit, Bitset.bit_init m hlen hi, ← Bool.decide_or, decide_eq_true_iff]
    simp only [not_mem_nil, or_false]
    exact or_comm

theorem Inv.frameAlloc (h : Inv base frames s out) (hend : base + 0x1000 * frames ≤ 2 ^ 64)
    (hframes : frames < 2 ^ 31) (hp : frameAlloc s = some (p, s')) :
    Inv base frames s' (p :: out) ∧ ∃ i, needed frames ≤ i ∧ i < frames ∧ p = base + 0x1000 * i ∧
      p ∉ out := by
  obtain ⟨i, hi, heq⟩ := Option.map_eq_some_iff.mp hp
  obtain ⟨hlt, hclear⟩ := Bitset.search_some hi
  have hfree : ¬ (i < needed frames ∨ frames ≤ i ∨ base + 0x1000 * i ∈ out) := fun hset => by
    rw [(h.bits i hlt).mpr hset] at hclear
    cases hclear
  simp only [not_or, Nat.not_lt, Nat.not_le] at hfree
  rw [h.start, Nat.mod_eq_of_lt (by omega)] at heq
  obtain ⟨rfl, rfl⟩ := Prod.mk.inj heq
  -- a frame is left, so the count does not wrap
  have hroom : out.length < frames - needed frames := by
    have hsub : ((base + 0x1000 * i) :: out) ⊆
        (range' (needed frames) (frames - needed frames)).map
        fun i => base + 0x1000 * i := by
      intro q hq
      rw [mem_map]
      rcases mem_cons.mp hq with rfl | hq
      · exact ⟨i, mem_range'_1.mpr (by omega), rfl⟩
      · obtain ⟨j, h1, h2, rfl⟩ := h.owned q hq
        exact ⟨j, mem_range'_1.mpr (by omega), rfl⟩
    have := ((nodup_cons.mpr ⟨hfree.2.2, h.nodup⟩).subperm hsub).length_le
    rw [length_cons, length_map, length_range'] at this
    omega
  have hcount := h.count
  refine ⟨⟨rfl, ?_, h.managed, fun j hj => ?_, ?_, nodup_cons.mpr ⟨hfree.2.2, h.nodup⟩, ?_⟩,
    i, hfree.1, hfree.2.1, rfl, hfree.2.2⟩
  · exact Bitset.size_set.trans h.size
  · rw [Bitset.size_set] at hj
    have hsame : base + 0x1000 * j = base + 0x1000 * i ↔ j = i := by omega
    rw [Bitset.bit_set hlt, Bool.or_eq_true, decide_eq_true_iff, h.bits j hj, mem_cons, hsame]
    simp only [or_assoc, or_comm]
    exact ⟨fun h => by rcases h with h | h | h | h <;> simp [h], fun h => by
      rcases h with h | h | h | h <;> simp [h]⟩
  · intro q hq
    rcases mem_cons.mp hq with rfl | hq
    · exact ⟨i, hfree.1, hfree.2.1, rfl⟩
    · exact h.owned q hq
  · rw [length_cons]
    show (s.totalCount + 2 ^ 32 - 1) % 2 ^ 32 + (out.length + 1) = _
    omega

theorem Inv.frameFree (h : Inv base frames s out) (hframes : frames < 2 ^ 31) (hp : p ∈ out) :
    ∃ s', frameFree s p = some s' ∧ Inv base frames s' (out.erase p) := by
  obtain ⟨i, h1, h2, rfl⟩ := h.owned p hp
  have hoff : (base + 0x1000 * i - base) / 0x1000 % 2 ^ 32 = i := by omega
  have hlt : i < 32 * s.b.size := by
    rw [h.size]
    omega
  have hlen := length_erase_of_mem hp
  have hpos := length_pos_of_mem hp
  have hcount := h.count
  refine ⟨_, if_neg (by rw [h.start]; omega), ?_⟩
  rw [h.start, hoff]
  refine ⟨rfl, Bitset.size_clear.trans h.size, h.managed, fun j hj => ?_, fun q hq => ?_,
    h.nodup.erase _, ?_⟩
  · rw [Bitset.size_clear] at hj
    have hsame : base + 0x1000 * j = base + 0x1000 * i ↔ j = i := by omega
    rw [Bitset.bit_clear hlt, Bool.and_eq_true, h.bits j hj, h.nodup.mem_erase_iff, ne_eq, hsame,
      Bool.not_eq_true', decide_eq_false_iff_not]
    by_cases hji : j = i
    · refine iff_of_false (fun h => h.2 hji) ?_
      rintro (hlow | hhigh | hmem)
      · omega
      · omega
      · exact hmem.1 hji
    · simp only [hji, not_false_eq_true, and_true, true_and]
  · exact h.owned q (mem_of_mem_erase hq)
  · show (s.totalCount + 1) % 2 ^ 32 + (out.erase _).length = _
    omega

theorem Inv.frameAlloc_none (h : Inv base frames s out) (hnone : Memory.frameAlloc s = none) :
    framesAvailable s = 0 := by
  have hall := fun i => Bitset.search_none (i := i) (Option.map_eq_none_iff.mp hnone)
  have hsub : (range' (needed frames) (frames - needed frames)).map (fun i => base + 0x1000 * i) ⊆
      out := by
    intro q hq
    obtain ⟨i, hi, rfl⟩ := mem_map.mp hq
    have hi := mem_range'_1.mp hi
    have hlt : i < 32 * s.b.size := by
      rw [h.size]
      omega
    rcases (h.bits i hlt).mp (hall i hlt) with hlow | hhigh | hmem
    · omega
    · omega
    · exact hmem
  have hnodup : ((range' (needed frames) (frames - needed frames)).map
      (fun i => base + 0x1000 * i)).Nodup :=
    Nodup.map (fun a b (hab : base + 0x1000 * a = base + 0x1000 * b) => by omega)
      nodup_range'
  have hlen := (hnodup.subperm hsub).length_le
  have hcount := h.count
  rw [length_map, length_range'] at hlen
  show s.totalCount = 0
  omega

variable (hbase : 0x1000 ∣ base) (hend : base + len ≤ 2 ^ 64) (hpos : 0x1000 ≤ len)
  (hlen : len / 0x1000 < 2 ^ 31) (hs : Reached base len s out)
include hbase hend hpos hlen hs

theorem inv_reached : Inv base (len / 0x1000) s out := by
  induction hs with
  | init m => exact inv_init m hbase hend hpos hlen
  | alloc _ hp ih => exact (ih.frameAlloc (by omega) hlen hp).1
  | free _ hp hs ih =>
    obtain ⟨s'', hs'', hinv⟩ := ih.frameFree hlen hp
    obtain rfl := Option.some.inj (hs''.symm.trans hs)
    exact hinv

/-- **The frame allocator in every run.** A frame that is returned is aligned, inside the region, no
frame of the bitmap and not outstanding; the count of available frames is exact; only an empty region
makes an allocation panic, and freeing an outstanding frame never does. -/
theorem run_frames_sound :
    (∀ p s', frameAlloc s = some (p, s') → 0x1000 ∣ p ∧ base ≤ p ∧ p + 0x1000 ≤ base + len ∧
      base + 0x1000 * needed (len / 0x1000) ≤ p ∧ p ∉ out) ∧
    framesAvailable s + out.length = framesTotal s ∧
    (frameAlloc s = none → out.length = framesTotal s) ∧
    ∀ p ∈ out, (frameFree s p).isSome = true := by
  have h := inv_reached hbase hend hpos hlen hs
  have hcount : framesAvailable s + out.length = framesTotal s := h.count.trans h.managed.symm
  refine ⟨fun p s' hp => ?_, hcount, fun hnone => ?_, fun p hp => ?_⟩
  · obtain ⟨_, i, h1, h2, rfl, hout⟩ := h.frameAlloc (by omega) hlen hp
    obtain ⟨k, rfl⟩ := hbase
    exact ⟨⟨k + i, by omega⟩, by omega, by omega, by omega, hout⟩
  · rw [← hcount, h.frameAlloc_none hnone, zero_add]
  · obtain ⟨s', hs', _⟩ := h.frameFree hlen hp
    rw [hs']
    rfl

end

/-- Two frames of three are allocated and the first of them is freed. -/
theorem run_frames_sound_freed : ∃ s, Reached 0x100000 0x4000 s [0x102000] ∧
    framesAvailable s = 2 ∧ framesAvailable s + 1 = framesTotal s ∧
    (frameFree s 0x102000).isSome = true := by
  have hrun : ((frameAlloc (framesInit (fun _ => 5) 0x100000 0x4000)).bind fun a =>
      (frameAlloc a.2).bind fun b => (frameFree b.2 a.1).map fun s =>
        ([b.1, a.1].erase a.1, framesAvailable s)) = some ([0x102000], 2) := by
    decide +kernel
  obtain ⟨a, ha, hrun⟩ := Option.bind_eq_some_iff.mp hrun
  obtain ⟨b, hb, hrun⟩ := Option.bind_eq_some_iff.mp hrun
  obtain ⟨s, hs, hvals⟩ := Option.map_eq_some_iff.mp hrun
  obtain ⟨hout, havail⟩ := Prod.mk.inj hvals
  have hreached := Reached.free (.alloc (.alloc (.init _) ha) hb) (by simp) hs
  rw [hout] at hreached
  obtain ⟨_, hcount, _, hfree⟩ :=
    run_frames_sound (by decide) (by decide) (by decide) (by decide) hreached
  exact ⟨s, hreached, havail, hcount, hfree _ mem_cons_self⟩

end JuampiOs.Memory
