import JuampiOs.Heap.Large

/-!
# Runs of the heap

A run starts with `heap_init` on a region and goes on with requests to `heap_alloc`, with
`heap_free` of blocks that are live, and with writes of the program to its own blocks. The
run state keeps the live blocks beside the machine.

`Inv` is the invariant of a run: the machine holds a layout whose handed out blocks are the
live ones. Each step keeps it (`inv_alloc`, `inv_free`, `inv_store`), and what the heap
promises is read off it (`Inv.sound`). The one assumption is on the region (`Region.Fits`):
it does not start at the null address, its slabs can be counted in 32 bits, and it ends far
enough below the top of the address space that the bound check of `carve` does not wrap.
-/

namespace JuampiOs.Heap

open Lib List Layout

/-- A region given to `heap_init`: at least two slabs inside the address space. -/
structure Region where
  start : Nat
  size : Nat
  two_slabs : 2 * slabSize ≤ size
  size_lt : size < 2 ^ 63
  end_le : start + size ≤ 2 ^ 64

namespace Region

/-- The descriptors `heap_init` makes room for. -/
def maxSlabs (r : Region) : Nat := u32 (r.size / slabSize)

/-- The slabs of a request for the whole region. -/
def most (r : Region) : Nat := (r.size + slabSize - 1) / slabSize

/-- The region is not at the null address, its slabs can be counted in 32 bits, and a
request for its size made at its end stays inside the address space. -/
def Fits (r : Region) : Prop :=
  0 < r.start ∧ r.most < 2 ^ 32 ∧
    (r.start + r.size) / slabSize * slabSize + r.most * slabSize < 2 ^ 64

end Region

/-- The slabs a large request takes. -/
def slabsOf (size count : Int) : Nat := (requested size count + slabSize - 1) / slabSize

/-- The slabs of a request can be counted in 32 bits, and as many can be added to the end of the
heap without leaving the address space. -/
def Counted (endAddr : Nat) (size count : Int) : Prop :=
  slabsOf size count < 2 ^ 32 ∧ endAddr + slabsOf size count * slabSize < 2 ^ 64

/-- A block that is live, with the bytes asked for. -/
structure Block where
  ptr : Nat
  size : Nat

/-- The machine and the blocks that were returned and not freed. -/
structure State where
  machine : Machine
  live : List Block

inductive Op where
  | alloc (size align count : Int)
  | free (p : Nat)
  | store (p off : Nat) (v : UInt8)

/-- One step of a run: a request that returns, a free of a live block, or a write of the
program inside a live block. -/
inductive Step (r : Region) (s : State) : Op → State → Prop where
  | alloc {size align count : Int} {p : Nat} {t : Machine} (halign : align ≤ 16)
      (htotal : size * count ≤ r.size)
      (h : heapAlloc s.machine size align count = .ok (p, t)) :
      Step r s (.alloc size align count) ⟨t, ⟨p, requested size count⟩ :: s.live⟩
  | free {b : Block} (hb : b ∈ s.live) :
      Step r s (.free b.ptr)
        ⟨heapFree s.machine b.ptr, s.live.filter fun x => decide (x.ptr ≠ b.ptr)⟩
  | store {b : Block} {off : Nat} {v : UInt8} (hb : b ∈ s.live)
      (hoff : off < heapUsableSize s.machine b.ptr) :
      Step r s (.store b.ptr off v)
        ⟨⟨s.machine.heap, s.machine.mem.put8 (b.ptr + off) v⟩, s.live⟩

/-- The states of the runs over a region, whatever the memory held before. -/
inductive Reached (r : Region) : State → Prop where
  | init (mem : Buf) : Reached r ⟨⟨heapInit r.start r.size, mem⟩, []⟩
  | step {s s' : State} {op : Op} (h : Reached r s) (hstep : Step r s op s') : Reached r s'

/-- The blocks a layout has handed out are the live ones. -/
structure Tracks (L : Layout blocksOf) (s : State) : Prop where
  used : ∀ b ∈ s.live, ∃ k i e, L.Used k i e ∧ b.ptr = addrOf s.machine.heap k i e ∧
    b.size ≤ extentSize e
  live : ∀ {k i e}, L.Used k i e → ∃ b ∈ s.live, b.ptr = addrOf s.machine.heap k i e
  nodup : (s.live.map Block.ptr).Nodup

/-- Every slab of a class with a free block is once in the list of the class. -/
def ListedOnce (L : Layout blocksOf) (s : Machine) : Prop :=
  ∀ c, ∃ l : List Nat, Threaded s.mem (s.heap.partials c) (l.map (desc s.heap)) ∧
    ∀ k free, L.kind k = .small c free → free ≠ [] → l.count k = 1

/-- The runs of the list of free runs do not meet. -/
def RunsApart (s : Machine) : Prop :=
  ∃ l : List Nat, Threaded s.mem s.heap.freeRuns (l.map (desc s.heap)) ∧
    l.Pairwise fun k j => k + (slabAt s.mem (desc s.heap k)).nslabs ≤ j ∨
      j + (slabAt s.mem (desc s.heap j)).nslabs ≤ k

/-- What the heap promises of its live blocks and of its lists. -/
structure Sound (r : Region) (s : State) : Prop where
  aligned : ∀ b ∈ s.live, 16 ∣ b.ptr
  within : ∀ b ∈ s.live, s.machine.heap.baseAddr ≤ b.ptr ∧
    b.ptr + heapUsableSize s.machine b.ptr ≤ s.machine.heap.endAddr
  disjoint : s.live.Pairwise fun a b =>
    a.ptr + heapUsableSize s.machine a.ptr ≤ b.ptr ∨
      b.ptr + heapUsableSize s.machine b.ptr ≤ a.ptr
  offDescs : ∀ b ∈ s.live, s.machine.heap.descs + r.maxSlabs * descSize ≤ b.ptr
  usable : ∀ b ∈ s.live, b.size ≤ heapUsableSize s.machine b.ptr
  /-- The slabs are divided into the live blocks and those on the lists. -/
  lists : ∃ L : Layout blocksOf, Represents r.maxSlabs r.most L s.machine ∧ Tracks L s ∧
    ListedOnce L s.machine ∧ RunsApart s.machine

/-- The bytes of a block, over its usable size, are as before. -/
def Unmodified (s s' : State) (b : Block) : Prop :=
  ∀ a, b.ptr ≤ a → a < b.ptr + heapUsableSize s.machine b.ptr → s'.machine.mem a = s.machine.mem a

/-- What a step of the heap does to the bytes of blocks: a new block is zero over the bytes
asked for, and the blocks that stay live are not modified. -/
def Keeps (s : State) (op : Op) (s' : State) : Prop :=
  match op with
  | .alloc size _ count =>
    (∃ b, s'.live = b :: s.live ∧ b.size = requested size count ∧
      ∀ a, b.ptr ≤ a → a < b.ptr + b.size → s'.machine.mem a = 0) ∧
    ∀ b ∈ s.live, Unmodified s s' b
  | .free p => ∀ b ∈ s.live, b.ptr ≠ p → Unmodified s s' b
  | .store .. => True

/-! ## The interface on a heap that holds a layout -/

section Interface

variable {slots most : Nat} {L : Layout blocksOf} {s : Machine} {k i x y : Nat} {e e' : Extent}

theorem extentSize_pos (hu : L.Used k i e) : 0 < extentSize e := by
  cases e with
  | block c =>
    obtain ⟨free, hk, -⟩ := hu
    have := (classSize_spec (L.small_ok hk).2.1).2.1
    show 0 < classSize c
    omega
  | slabs n => exact mul_pos (L.run_ok hu.1).1 (by decide)

theorem extent_unique (hu : L.Used k i e) (hu' : L.Used k i e') : e = e' := by
  cases e with
  | block c =>
    obtain ⟨free, hk, -⟩ := hu
    exact ((used_small hk).mp hu').1.symm
  | slabs n => exact ((used_run hu.1).mp hu').1.symm

theorem used_inj {h : HeapAllocator} (hu : L.Used k i e) (hu' : L.Used x y e')
    (heq : addrOf h k i e = addrOf h x y e') : k = x ∧ i = y := by
  by_contra hne
  have h1 := extentSize_pos hu
  have h2 := extentSize_pos hu'
  have h3 := used_apart (h := h) hu hu' hne
  omega

namespace Represents

section

variable (R : Represents slots most L s)
include R

theorem slabOf_used (hu : L.Used k i e) : slabOf s.heap (addrOf s.heap k i e) = desc s.heap k := by
  have hle := le_of_lt hu.lt_carved
  cases e with
  | block c =>
    obtain ⟨free, hk, hi, -⟩ := hu
    have hin := blockAddr_le (h := s.heap) (k := k) hi
    have h16 := (classSize_spec (L.small_ok hk).2.1).2.1
    exact R.slabOf_eq hle (by unfold blockAddr at hin; omega)
  | slabs n =>
    have hof := R.slabOf_eq hle (show 0 < slabSize by decide)
    rwa [add_zero] at hof

theorem base_le_used (hu : L.Used k i e) :
    s.heap.descs + slots * descSize ≤ addrOf s.heap k i e ∧
      addrOf s.heap k i e + extentSize e ≤ s.heap.endAddr := by
  have h1 := (used_le (h := s.heap) hu).2
  have h2 := R.bump_eq
  have h3 := R.bump_le
  have h4 : s.heap.descs + slots * descSize ≤ s.heap.baseAddr := R.geo.descs_le
  have h5 := base_le_addrOf s.heap k i e
  omega

/-- **`heap_usable_size`** is the extent of the block. -/
theorem heapUsableSize_eq (hu : L.Used k i e) :
    heapUsableSize s (addrOf s.heap k i e) = extentSize e := by
  unfold heapUsableSize
  rw [R.slabOf_used hu]
  cases e with
  | block c =>
    obtain ⟨free, hk, -⟩ := hu
    have hc := (classSize_spec (L.small_ok hk).2.1).1
    have hne : c ≠ largeClass := by
      unfold largeClass
      omega
    simp only [(R.small hk).1, if_neg hne, extentSize]
  | slabs n =>
    obtain ⟨hclass, hlen⟩ := R.run hu.1
    simp only [hclass, if_true, hlen, extentSize]

end

variable {size align count : Int}
variable (R : Represents slots most L s)
include R

/-- **`heap_alloc`** of a request the region was dimensioned for is an allocation. -/
theorem heapAlloc_spec {p : Nat} {s' : Machine} (hmost : requested size count ≤ most * slabSize)
    (h : heapAlloc s size align count = .ok (p, s')) :
    ∃ L' k i e, Allocated slots most L s (requested size count) p L' s' k i e := by
  unfold heapAlloc at h
  split at h
  · cases h
  split at h
  · cases h
  rename_i hargs
  rw [not_or, not_or] at hargs
  have hnn : 0 ≤ size * count := Int.mul_nonneg (by omega) (by omega)
  have hpos : 0 < requested size count := by
    unfold requested
    split <;> omega
  split at h
  · rename_i hsmall
    refine R.allocSmall_spec ?_ hsmall h
    by_contra hzero
    have : most = 0 := by omega
    rw [this] at hmost
    omega
  · exact R.allocLarge_spec hpos hmost h

theorem withMost {m : Nat} (htop : s.heap.endAddr + m * slabSize < 2 ^ 64) (hlt : m < 2 ^ 32) :
    Represents slots m L s :=
  { R with geo := { R.geo with top := htop, most_lt := hlt } }

theorem heapAlloc_counted {p : Nat} {s' : Machine} (hc : Counted s.heap.endAddr size count)
    (h : heapAlloc s size align count = .ok (p, s')) :
    ∃ L' k i e, Allocated slots most L s (requested size count) p L' s' k i e := by
  have hreq : requested size count ≤ slabsOf size count * slabSize := by
    unfold slabsOf slabSize
    omega
  obtain ⟨L', k, i, e, A⟩ := (R.withMost hc.2 hc.1).heapAlloc_spec hreq h
  have htop : s'.heap.endAddr + most * slabSize < 2 ^ 64 := by
    rw [A.same.last]
    exact R.geo.top
  exact ⟨L', k, i, e, { A with rep := A.rep.withMost htop R.geo.most_lt }⟩

theorem heapAlloc_stop {e : Stop} (halign : align ≤ 16)
    (hargs : 0 < size ∧ 0 ≤ count ∧ size * count ≤ ptrdiffMax)
    (h : heapAlloc s size align count = .error e) : e = .outOfMemory := by
  unfold heapAlloc at h
  rw [if_neg (by omega), if_neg ?_] at h
  · split at h
    · exact allocSmall_stop h
    · exact R.allocLarge_stop h
  · rintro (h1 | h1 | ⟨h1, h2⟩)
    · omega
    · omega
    · rw [Int.ediv_lt_iff_lt_mul h1] at h2
      omega

end Represents

/-- What freeing block `i` of slab `k` leaves: it is no longer handed out, every other block
still is, with the bytes it had. -/
structure Freed (slots most : Nat) (L : Layout blocksOf) (s : Machine)
    (L' : Layout blocksOf) (s' : Machine) (k i : Nat) : Prop where
  rep : Represents slots most L' s'
  same : SameRegion s.heap s'.heap
  used : ∀ {x y e'}, L'.Used x y e' ↔ L.Used x y e' ∧ ¬ (x = k ∧ y = i)
  keep : ∀ {x y e'}, L'.Used x y e' → ∀ a, addrOf s.heap x y e' ≤ a →
    a < addrOf s.heap x y e' + extentSize e' → s'.mem a = s.mem a

/-- **`heap_free`** of a block that is handed out. -/
theorem Represents.heapFree_spec (R : Represents slots most L s) (hu : L.Used k i e) :
    ∃ L', Freed slots most L s L' (heapFree s (addrOf s.heap k i e)) k i := by
  have hkslot : ∀ j, j = k → desc s.heap j + descSize ≤ s.heap.baseAddr := by
    rintro _ rfl
    exact R.desc_le_base hu.lt_carved
  have hne : addrOf s.heap k i e ≠ 0 := by
    have h1 := base_le_addrOf s.heap k i e
    have h2 := R.base_pos
    omega
  unfold heapFree
  rw [if_neg hne]
  simp only [R.slabOf_used hu]
  cases e with
  | block c =>
    have hu0 := hu
    obtain ⟨free, hk, hi, hfree⟩ := hu
    have hc := classSize_spec (L.small_ok hk).2.1
    rw [if_neg (by rw [(R.small hk).1]; unfold largeClass; omega)]
    obtain ⟨s', hnd, hlt, heq, R', S, T⟩ := R.freeSmall_spec hk hi hfree
    have heq' : freeSmall s (desc s.heap k) (addrOf s.heap k i (.block c)) = s' := heq
    rw [heq']
    refine ⟨_, R', S, used_give, ?_⟩
    intro x y e' hu' a h1 h2
    obtain ⟨hold, hxy⟩ := used_give.mp hu'
    have hapart := used_apart (h := s.heap) hold hu0 hxy
    refine T.keep hkslot ?_ h1 h2
    simp only [addrOf, extentSize] at hapart ⊢
    omega
  | slabs n =>
    rw [if_pos (R.run hu.1).1]
    refine ⟨_, R.freeRun_spec hu.1, ⟨rfl, rfl, rfl⟩, ?_, ?_⟩
    · intro x y e'
      rw [used_freeRun, hu.2]
    · intro x y e' hu' a h1 h2
      exact Represents.touched_setNext.keep hkslot (.inl (base_le_addrOf ..)) h1 h2

end Interface

/-! ## The invariant -/

/-- The machine holds a layout whose handed out blocks are the live ones. -/
structure Inv (r : Region) (L : Layout blocksOf) (s : State) : Prop where
  rep : Represents r.maxSlabs r.most L s.machine
  tracks : Tracks L s

section Invariant

variable {r : Region} {L : Layout blocksOf} {s s' : State}

theorem heapInit_eq (hfits : r.Fits) : r.maxSlabs = r.size / slabSize ∧
    heapInit r.start r.size =
      { baseAddr := (r.start + r.size / slabSize * descSize + slabSize - 1) / slabSize * slabSize
        bump := (r.start + r.size / slabSize * descSize + slabSize - 1) / slabSize * slabSize
        endAddr := (r.start + r.size) / slabSize * slabSize
        descs := r.start
        partials := fun _ => 0
        freeRuns := 0 } := by
  obtain ⟨hpos, hmost, htop⟩ := hfits
  have htwo := r.two_slabs
  have h1 : u32 (r.size / slabSize) = r.size / slabSize := by
    unfold Region.most u32 slabSize at *
    omega
  have h2 : u64 (r.start + r.size / slabSize * descSize) =
      r.start + r.size / slabSize * descSize := by
    unfold u64 Region.most slabSize descSize at *
    omega
  have h3 : u64 (r.start + r.size / slabSize * descSize + slabSize - 1) =
      r.start + r.size / slabSize * descSize + slabSize - 1 := by
    unfold u64 Region.most slabSize descSize at *
    omega
  have h4 : u64 (r.start + r.size) = r.start + r.size := by
    unfold u64 Region.most slabSize at *
    omega
  exact ⟨h1, by simp only [heapInit, h1, h2, h3, h4]⟩

theorem geometry_init (hfits : r.Fits) : Geometry (heapInit r.start r.size) r.maxSlabs r.most := by
  obtain ⟨hslots, hinit⟩ := heapInit_eq hfits
  rw [hinit, hslots]
  refine ⟨hfits.1, ⟨_, mul_comm _ _⟩, ?_, ?_, hfits.2.2, hfits.2.1⟩
  · simp only [desc, slabSize, descSize]
    omega
  · simp only [slab, slabSize, descSize]
    omega

theorem inv_init (hfits : r.Fits) (mem : Buf) :
    Inv r Layout.empty ⟨⟨heapInit r.start r.size, mem⟩, []⟩ := by
  have hle : (heapInit r.start r.size).bump ≤ (heapInit r.start r.size).endAddr := by
    have htwo := r.two_slabs
    rw [(heapInit_eq hfits).2]
    apply Nat.mul_le_mul_right
    apply Nat.div_le_div_right
    unfold slabSize descSize at *
    omega
  refine ⟨⟨geometry_init hfits, ?_, hle, (fun h => by cases h), (fun h => by cases h),
    fun _ => threaded_nil.mpr rfl, threaded_nil.mpr rfl⟩, ?_⟩
  · simp only [slab, empty, Nat.zero_mul, add_zero]
    rfl
  · exact ⟨(fun _ h => by cases h), fun h => (not_used_empty h).elim, nodup_nil⟩

section

variable (I : Inv r L s)
include I

theorem Inv.usable {b : Block} (hb : b ∈ s.live) :
    ∃ k i e, L.Used k i e ∧ b.ptr = addrOf s.machine.heap k i e ∧
      b.size ≤ extentSize e ∧ heapUsableSize s.machine b.ptr = extentSize e := by
  obtain ⟨k, i, e, hu, hptr, hsize⟩ := I.tracks.used b hb
  exact ⟨k, i, e, hu, hptr, hsize, by rw [hptr, I.rep.heapUsableSize_eq hu]⟩

variable {size align count : Int}

section

variable {p : Nat} {t : Machine} (h : heapAlloc s.machine size align count = .ok (p, t))
include h

/-- **A request that returns keeps the invariant**, returns zeroed memory and modifies no
live block. -/
theorem inv_alloc_counted (hc : Counted s.machine.heap.endAddr size count) :
    (∃ L', Inv r L' ⟨t, ⟨p, requested size count⟩ :: s.live⟩) ∧
      Keeps s (.alloc size align count) ⟨t, ⟨p, requested size count⟩ :: s.live⟩ := by
  obtain ⟨L', k, i, e, A⟩ := I.rep.heapAlloc_counted hc h
  have haddr := A.same.addrOf_eq
  have hkeep : ∀ b ∈ s.live,
      Unmodified s ⟨t, ⟨p, requested size count⟩ :: s.live⟩ b := by
    intro b hb a h1 h2
    obtain ⟨x, y, e', hu, hptr, -, husable⟩ := I.usable hb
    rw [husable] at h2
    rw [hptr] at h1 h2
    exact A.keep hu a h1 h2
  refine ⟨⟨L', A.rep, ?_, ?_, ?_⟩, ⟨_, rfl, rfl, A.zero⟩, hkeep⟩
  · intro b hb
    rcases mem_cons.mp hb with rfl | hb
    · exact ⟨k, i, e, A.used.mpr (.inr ⟨rfl, rfl, rfl⟩), by rw [haddr]; exact A.ptr, A.size⟩
    · obtain ⟨x, y, e', hu, hptr, hsize⟩ := I.tracks.used b hb
      exact ⟨x, y, e', A.used.mpr (.inl hu), by rw [haddr]; exact hptr, hsize⟩
  · intro x y e' hu
    rcases A.used.mp hu with hold | ⟨rfl, rfl, rfl⟩
    · obtain ⟨b, hb, hptr⟩ := I.tracks.live hold
      exact ⟨b, mem_cons_of_mem _ hb, by rw [haddr]; exact hptr⟩
    · exact ⟨_, mem_cons_self, by rw [haddr]; exact A.ptr⟩
  · -- a live block at the returned address would have been handed out before
    refine nodup_cons.mpr ⟨fun hmem => ?_, I.tracks.nodup⟩
    obtain ⟨b, hb, hbp⟩ := mem_map.mp hmem
    obtain ⟨x, y, e', hu, hptr, -⟩ := I.tracks.used b hb
    have hsame : addrOf s.machine.heap x y e' = addrOf s.machine.heap k i e := by
      rw [← hptr, ← A.ptr]
      exact hbp
    obtain ⟨rfl, rfl⟩ := used_inj (A.used.mpr (.inl hu)) (A.used.mpr (.inr ⟨rfl, rfl, rfl⟩)) hsame
    exact A.fresh hu

theorem inv_alloc (htotal : size * count ≤ r.size) :
    (∃ L', Inv r L' ⟨t, ⟨p, requested size count⟩ :: s.live⟩) ∧
      Keeps s (.alloc size align count) ⟨t, ⟨p, requested size count⟩ :: s.live⟩ := by
  have hslabs : slabsOf size count ≤ r.most := by
    have htwo := r.two_slabs
    unfold slabsOf requested Region.most
    unfold slabSize at *
    split <;> omega
  have htop := I.rep.geo.top
  have hlt := I.rep.geo.most_lt
  have hmul := Nat.mul_le_mul_right slabSize hslabs
  exact inv_alloc_counted I h ⟨by omega, by omega⟩

end

/-- **Freeing a live block keeps the invariant** and modifies no other live block. -/
theorem inv_free {b : Block} (hb : b ∈ s.live) :
    (∃ L', Inv r L' ⟨heapFree s.machine b.ptr,
        s.live.filter fun x => decide (x.ptr ≠ b.ptr)⟩) ∧
      Keeps s (.free b.ptr) ⟨heapFree s.machine b.ptr,
        s.live.filter fun x => decide (x.ptr ≠ b.ptr)⟩ := by
  obtain ⟨k, i, e, hu, hptr, -⟩ := I.tracks.used b hb
  obtain ⟨L', F⟩ := I.rep.heapFree_spec hu
  rw [← hptr] at F
  have haddr := F.same.addrOf_eq
  -- another pointer is another block
  have hother : ∀ {x y e'}, L.Used x y e' → addrOf s.machine.heap x y e' ≠ b.ptr →
      L'.Used x y e' := by
    intro x y e' hu' hne
    refine F.used.mpr ⟨hu', ?_⟩
    rintro ⟨rfl, rfl⟩
    rw [extent_unique hu' hu, ← hptr] at hne
    exact hne rfl
  refine ⟨⟨L', F.rep, ?_, ?_, ?_⟩, ?_⟩
  · intro d hd
    obtain ⟨hd, hne⟩ := mem_filter.mp hd
    obtain ⟨x, y, e', hu', hptr', hsize⟩ := I.tracks.used d hd
    refine ⟨x, y, e', hother hu' ?_, by rw [haddr]; exact hptr', hsize⟩
    rw [← hptr']
    exact of_decide_eq_true hne
  · intro x y e' hu'
    obtain ⟨hold, hne⟩ := F.used.mp hu'
    obtain ⟨d, hd, hptr'⟩ := I.tracks.live hold
    refine ⟨d, mem_filter.mpr ⟨hd, decide_eq_true ?_⟩, by rw [haddr]; exact hptr'⟩
    intro heq
    exact hne (used_inj hold hu (by rw [← hptr', heq, hptr]))
  · exact I.tracks.nodup.sublist (filter_sublist.map _)
  · intro d hd hne a h1 h2
    obtain ⟨x, y, e', hu', hptr', -, husable⟩ := I.usable hd
    rw [husable] at h2
    rw [hptr'] at h1 h2 hne
    exact F.keep (hother hu' hne) a h1 h2

/-- **A write to a live block keeps the invariant**: the heap keeps nothing there. -/
theorem inv_store {b : Block} (hb : b ∈ s.live) {off : Nat} {v : UInt8}
    (hoff : off < heapUsableSize s.machine b.ptr) :
    Inv r L ⟨⟨s.machine.heap, s.machine.mem.put8 (b.ptr + off) v⟩, s.live⟩ := by
  obtain ⟨k, i, e, hu, hptr, -, husable⟩ := I.usable hb
  rw [husable] at hoff
  refine ⟨?_, I.tracks.used, I.tracks.live, I.tracks.nodup⟩
  have T : Touched s.machine.heap (fun _ => False) (b.ptr + off) (b.ptr + off + 1) s.machine.mem
      (s.machine.mem.put8 (b.ptr + off) v) := by
    intro a _ hrange
    exact Buf.blit_of_notMem (by omega)
  refine I.rep.frame T ?_ ?_
  · rw [hptr]
    have := base_le_addrOf s.machine.heap k i e
    omega
  · intro j c free i' hkind hi'
    have hs := L.small_ok hkind
    have h16 := (classSize_spec hs.2.1).2.1
    have hin := hs.2.2.2 i' hi'
    rw [hptr]
    -- a free block is not the one written to, and its link lies inside it
    cases e with
    | block c' =>
      obtain ⟨free', hk, hi, hfree⟩ := hu
      simp only [addrOf, extentSize] at hoff ⊢
      have := block_apart_block (h := s.machine.heap) hk hi hkind hin (by
        rintro ⟨rfl, rfl⟩
        rw [hk] at hkind
        cases hkind
        exact hfree hi')
      omega
    | slabs n =>
      have := run_apart_block (h := s.machine.heap) hu.1 hkind hin
      simp only [addrOf, extentSize] at hoff ⊢
      omega

end

/-! ## What holds in every state -/

section

variable {slots most : Nat} {m : Machine} (R : Represents slots most L m)
include R

theorem base_dvd_addrOf {k i : Nat} {e : Extent} (hu : L.Used k i e) : 16 ∣ addrOf m.heap k i e := by
  have hslab : 16 ∣ slab m.heap k :=
    Nat.dvd_add (Nat.dvd_trans (by decide) R.geo.base_dvd)
      (dvd_trans (by decide) (dvd_mul_left _ _))
  cases e with
  | block c =>
    obtain ⟨free, hk, -⟩ := hu
    have hc := (classSize_spec (L.small_ok hk).2.1).2.2
    exact Nat.dvd_add hslab (Nat.dvd_trans hc (Nat.dvd_mul_left _ _))
  | slabs n => exact hslab

theorem listedOnce : ListedOnce L m := by
  intro c
  refine ⟨L.partials c, R.partials c, ?_⟩
  intro k free hk hne
  exact count_eq_one_of_mem (L.partials_nodup c) (L.mem_partials.mpr ⟨free, hk, hne⟩)

theorem runsApart : RunsApart m := by
  refine ⟨L.freeRuns, R.freeRuns, ?_⟩
  apply L.freeRuns_nodup.imp_of_mem
  intro k j hk hj hne
  obtain ⟨n, hn⟩ := L.mem_freeRuns.mp hk
  obtain ⟨n', hn'⟩ := L.mem_freeRuns.mp hj
  rw [(R.run hn).2, (R.run hn').2]
  exact run_apart_run hn hn' hne

end

theorem Inv.sound (I : Inv r L s) : Sound r s where
  aligned := by
    intro b hb
    obtain ⟨k, i, e, hu, hptr, -⟩ := I.tracks.used b hb
    rw [hptr]
    exact base_dvd_addrOf I.rep hu
  within := by
    intro b hb
    obtain ⟨k, i, e, hu, hptr, -, husable⟩ := I.usable hb
    rw [husable, hptr]
    exact ⟨base_le_addrOf .., (I.rep.base_le_used hu).2⟩
  disjoint := by
    have hnd : s.live.Pairwise fun a b => a.ptr ≠ b.ptr := pairwise_map.mp I.tracks.nodup
    apply hnd.imp_of_mem
    intro a b ha hb hne
    obtain ⟨k, i, e, hu, hptr, -, husable⟩ := I.usable ha
    obtain ⟨x, y, e', hu', hptr', -, husable'⟩ := I.usable hb
    rw [husable, husable', hptr, hptr']
    apply used_apart hu hu'
    rintro ⟨rfl, rfl⟩
    rw [hptr, hptr', extent_unique hu hu'] at hne
    exact hne rfl
  offDescs := by
    intro b hb
    obtain ⟨k, i, e, hu, hptr, -⟩ := I.tracks.used b hb
    rw [hptr]
    exact (I.rep.base_le_used hu).1
  usable := by
    intro b hb
    obtain ⟨k, i, e, -, -, hsize, husable⟩ := I.usable hb
    rw [husable]
    exact hsize
  lists := ⟨L, I.rep, I.tracks, listedOnce I.rep, runsApart I.rep⟩

/-- A step keeps the invariant and the bytes of the blocks it is not about. -/
theorem inv_step (I : Inv r L s) {op : Op} (h : Step r s op s') :
    (∃ L', Inv r L' s') ∧ Keeps s op s' := by
  cases h with
  | alloc halign htotal h => exact inv_alloc I h htotal
  | free hb => exact inv_free I hb
  | store hb hoff => exact ⟨⟨L, inv_store I hb hoff⟩, trivial⟩

theorem inv_reached (hfits : r.Fits) (hs : Reached r s) : ∃ L, Inv r L s := by
  induction hs with
  | init mem => exact ⟨_, inv_init hfits mem⟩
  | step h hstep ih =>
    obtain ⟨L, I⟩ := ih
    exact (inv_step I hstep).1

/-- **The heap keeps its promises in every run.** Over a region that fits, the live blocks of
every state that is reached are aligned, inside the region, apart from each other and from
the descriptors and large enough; the lists are in order; a step returns zeroed memory and
modifies no other block; and a valid request that does not return has run out of memory. -/
theorem run_heap_sound (hfits : r.Fits) (hs : Reached r s) :
    Sound r s ∧ (∀ op s', Step r s op s' → Keeps s op s') ∧
      ∀ size align count : Int, align ≤ 16 → 0 < size → 0 ≤ count → size * count ≤ r.size →
        ∀ e, heapAlloc s.machine size align count = .error e → e = .outOfMemory := by
  obtain ⟨L, I⟩ := inv_reached hfits hs
  refine ⟨I.sound, fun op s' h => (inv_step I h).2, ?_⟩
  intro size align count halign hsize hcount htotal e h
  refine I.rep.heapAlloc_stop halign ⟨hsize, hcount, ?_⟩ h
  have := r.size_lt
  unfold ptrdiffMax
  omega

end Invariant

/-! ## Requests of any size -/

/-- The states of the runs over a region in which the slabs of every request can be counted. -/
inductive ReachedCounted (r : Region) : State → Prop where
  | init (mem : Buf) : ReachedCounted r ⟨⟨heapInit r.start r.size, mem⟩, []⟩
  | alloc {s : State} {size align count : Int} {p : Nat} {t : Machine} (h : ReachedCounted r s)
      (hc : Counted s.machine.heap.endAddr size count)
      (halloc : heapAlloc s.machine size align count = .ok (p, t)) :
      ReachedCounted r ⟨t, ⟨p, requested size count⟩ :: s.live⟩
  | free {s : State} {b : Block} (h : ReachedCounted r s) (hb : b ∈ s.live) :
      ReachedCounted r
        ⟨heapFree s.machine b.ptr, s.live.filter fun x => decide (x.ptr ≠ b.ptr)⟩
  | store {s : State} {b : Block} {off : Nat} {v : UInt8} (h : ReachedCounted r s) (hb : b ∈ s.live)
      (hoff : off < heapUsableSize s.machine b.ptr) :
      ReachedCounted r ⟨⟨s.machine.heap, s.machine.mem.put8 (b.ptr + off) v⟩, s.live⟩

theorem inv_reachedCounted {r : Region} {s : State} (hfits : r.Fits) (hs : ReachedCounted r s) :
    ∃ L, Inv r L s := by
  induction hs with
  | init mem => exact ⟨_, inv_init hfits mem⟩
  | alloc _ hc halloc ih =>
    obtain ⟨L, I⟩ := ih
    exact (inv_alloc_counted I halloc hc).1
  | free _ hb ih =>
    obtain ⟨L, I⟩ := ih
    exact (inv_free I hb).1
  | store _ hb hoff ih =>
    obtain ⟨L, I⟩ := ih
    exact ⟨L, inv_store I hb hoff⟩

/-- **A request is never answered with less than it asks for.** In every state of a run over a region
that fits, a request that passes the checks and whose slabs can be counted panics or returns a block
whose bytes are all inside the heap. -/
theorem run_alloc_inside {r : Region} {s : State} (hfits : r.Fits) (hs : ReachedCounted r s)
    {size align count : Int} (hargs : 0 < size ∧ 0 ≤ count ∧ size * count ≤ ptrdiffMax)
    (hc : Counted s.machine.heap.endAddr size count) :
    match heapAlloc s.machine size align count with
    | .error e => e.message.isSome = true
    | .ok (p, t) => s.machine.heap.baseAddr ≤ p ∧
        p + requested size count ≤ s.machine.heap.endAddr ∧
        requested size count ≤ heapUsableSize t p := by
  obtain ⟨L, I⟩ := inv_reachedCounted hfits hs
  cases h : heapAlloc s.machine size align count with
  | error e =>
    by_cases halign : align ≤ 16
    · rw [I.rep.heapAlloc_stop halign hargs h]
      rfl
    · unfold heapAlloc at h
      rw [if_pos (by omega)] at h
      cases h
      rfl
  | ok r =>
    obtain ⟨p, t⟩ := r
    obtain ⟨L', k, i, e, A⟩ := I.rep.heapAlloc_counted hc h
    have hu : L'.Used k i e := A.used.mpr (.inr ⟨rfl, rfl, rfl⟩)
    have hle := (used_le (h := s.machine.heap) hu).2
    have hsize := A.size
    have hend : slab s.machine.heap L'.carved ≤ s.machine.heap.endAddr := by
      rw [← A.same.slab_eq, ← A.rep.bump_eq, ← A.same.last]
      exact A.rep.bump_le
    have huse := A.rep.heapUsableSize_eq hu
    rw [A.same.addrOf_eq, ← A.ptr] at huse
    rw [← A.ptr] at hle
    refine ⟨A.ptr ▸ base_le_addrOf _ k i e, by omega, ?_⟩
    rw [huse]
    exact hsize

/-- The request is answered, with a block and a heap that pass a test. -/
def answered (P : Nat → Machine → Bool) : Except Stop (Nat × Machine) → Bool
  | .ok (p, t) => P p t
  | .error _ => false

theorem Reached.alloc {r : Region} {s : State} (hs : Reached r s) {size align count : Int}
    (halign : align ≤ 16) (htotal : size * count ≤ r.size) {P : Nat → Machine → Bool}
    (h : answered P (heapAlloc s.machine size align count) = true) :
    ∃ p t, Reached r ⟨t, ⟨p, requested size count⟩ :: s.live⟩ ∧ P p t = true := by
  cases heq : heapAlloc s.machine size align count with
  | error e =>
    rw [heq] at h
    cases h
  | ok pt =>
    rw [heq] at h
    exact ⟨pt.1, pt.2, .step hs (.alloc halign htotal heq), h⟩

/-- A region that fits: four slabs at 1 MiB. -/
def lowRegion : Region := ⟨0x100000, 0x40000, by decide, by decide, by decide⟩

theorem lowRegion_fits : lowRegion.Fits := by
  refine ⟨?_, ?_, ?_⟩ <;> decide

/-- A run of two slabs, and a block of the slab behind it. -/
theorem run_heap_sound_low : ∃ p q t, p = 0x110000 ∧ q = 0x130000 ∧
    Sound lowRegion ⟨t, [⟨q, requested 16 1⟩, ⟨p, requested 0x20000 1⟩]⟩ := by
  obtain ⟨p, t, hs, hp⟩ := @Reached.alloc lowRegion _ (.init Buf.zero) 0x20000 1 1 (by decide)
    (by decide) (fun p t => p == 0x110000 && answered (fun q _ => q == 0x130000) (heapAlloc t 16 1 1))
    (by decide +kernel)
  rw [Bool.and_eq_true, beq_iff_eq] at hp
  obtain ⟨q, u, hs', hq⟩ := hs.alloc (by decide) (by decide) hp.2
  exact ⟨p, q, u, hp.1, beq_iff_eq.mp hq, (run_heap_sound lowRegion_fits hs').1⟩

/-- Two slabs of the four. -/
theorem run_alloc_inside_low :
    match heapAlloc ⟨heapInit lowRegion.start lowRegion.size, Buf.zero⟩ 0x20000 1 1 with
    | .error e => e.message.isSome = true
    | .ok (p, t) => 0x110000 ≤ p ∧ p + requested 0x20000 1 ≤ 0x140000 ∧
        requested 0x20000 1 ≤ heapUsableSize t p :=
  @run_alloc_inside lowRegion _ lowRegion_fits (.init Buf.zero) 0x20000 1 1 (by decide)
    ⟨by decide, by decide⟩

/-- The slab count of a request for 2 ^ 48 bytes is cut to 32 bits and becomes zero: it is answered
with a block of no slabs at all. -/
theorem alloc_wrapped : ∃ p t,
    heapAlloc ⟨heapInit lowRegion.start lowRegion.size, Buf.zero⟩ (2 ^ 48) 1 1 = .ok (p, t) ∧
      t.heap.endAddr < p + requested (2 ^ 48) 1 ∧ heapUsableSize t p < requested (2 ^ 48) 1 := by
  refine ⟨_, _, rfl, ?_, ?_⟩
  · decide +kernel
  · decide +kernel

/-- A region whose last slab is the last but one of the address space. -/
def topRegion : Region := ⟨0xFFFFFFFFFFE00000, 0x1F0000, by decide, by decide, by decide⟩

/-- The bound check of `carve` wraps: a request for the size of the region, which has one
slab less than that behind its descriptors, is answered with a block that reaches past the
end. -/
theorem allocates_past_end : ∃ s b, Reached topRegion s ∧ b ∈ s.live ∧
    s.machine.heap.endAddr < b.ptr + heapUsableSize s.machine b.ptr := by
  obtain ⟨p, t, hs, hp⟩ := @Reached.alloc topRegion _ (.init Buf.zero) 0x1F0000 1 1 (by decide)
    (by decide)
    (fun p t => decide (t.heap.endAddr < p + heapUsableSize t p)) (by decide +kernel)
  exact ⟨_, _, hs, mem_singleton.mpr rfl, of_decide_eq_true hp⟩

end JuampiOs.Heap
