import JuampiOs.Heap.Model
import JuampiOs.Lib.Slabs

/-!
# The heap in memory

`Represents slots most L s` says that the machine `s` holds the layout `L`: the descriptor
of every slab that is cut into blocks names its class and counts and threads its free
blocks, the descriptor of a run holds the length of the run, and the allocator's lists are
the lists of `L`. The region is described by `Geometry`: room for `slots` descriptors in
front of `slots` slabs, and `most` slabs can be asked for at once before an address wraps.

What is handed out takes the bytes from `addrOf` on for `extentSize`; two such blocks never
meet (`used_apart`).

Every function of the allocator writes a few descriptors and one range of the slabs. That is
`Touched`; what such a write leaves alone (`Touched.slabAt`, `Touched.load`) is used by all
the steps.
-/

namespace JuampiOs.Heap

open Lib

/-- The blocks a slab of class `c` is cut into. -/
def blocksOf (c : Nat) : Nat := slabSize / classSize c

theorem classSize_spec {c : Nat} (h : 0 < blocksOf c) :
    c < 18 ∧ 16 ≤ classSize c ∧ 16 ∣ classSize c := by
  have hsmall : ∀ c, c < 18 → 16 ≤ classSize c ∧ 16 ∣ classSize c := by decide
  by_cases hc : c < 18
  · exact ⟨hc, hsmall c hc⟩
  have hzero : classSize c = 0 := by
    have hlen : classSizes.length ≤ c := by
      show 18 ≤ c
      omega
    rw [classSize, List.getD_eq_default _ _ hlen]
  simp [blocksOf, hzero] at h

theorem blocksOf_mul_le (c : Nat) : blocksOf c * classSize c ≤ slabSize :=
  Nat.div_mul_le_self _ _

/-! ## Addresses -/

/-- The address of descriptor `k`. -/
def desc (h : HeapAllocator) (k : Nat) : Nat := h.descs + k * descSize

/-- The first byte of slab `k`. -/
def slab (h : HeapAllocator) (k : Nat) : Nat := h.baseAddr + k * slabSize

/-- The first byte of block `i` of slab `k` when it is cut into blocks of class `c`. -/
def blockAddr (h : HeapAllocator) (c k i : Nat) : Nat := slab h k + i * classSize c

variable {h : HeapAllocator}

theorem blockAddr_le {c k i : Nat} (hi : i < blocksOf c) :
    blockAddr h c k i + classSize c ≤ slab h k + slabSize := by
  have hmul : (i + 1) * classSize c ≤ blocksOf c * classSize c :=
    Nat.mul_le_mul_right _ hi
  have hle := blocksOf_mul_le c
  rw [add_mul, one_mul] at hmul
  unfold blockAddr
  omega

theorem blockAddr_apart {c k i j : Nat} (hij : i ≠ j) :
    blockAddr h c k i + classSize c ≤ blockAddr h c k j ∨
      blockAddr h c k j + classSize c ≤ blockAddr h c k i := by
  have hstep : ∀ a b, a < b → a * classSize c + classSize c ≤ b * classSize c := by
    intro a b hab
    have hmul : (a + 1) * classSize c ≤ b * classSize c := Nat.mul_le_mul_right _ hab
    rwa [add_mul, one_mul] at hmul
  unfold blockAddr
  rcases lt_or_gt_of_ne hij with hlt | hlt
  · have := hstep i j hlt
    omega
  · have := hstep j i hlt
    omega

theorem slab_le_slab {k j : Nat} (hkj : k < j) : slab h k + slabSize ≤ slab h j := by
  have hmul : (k + 1) * slabSize ≤ j * slabSize := Nat.mul_le_mul_right _ hkj
  rw [add_mul, one_mul] at hmul
  unfold slab
  omega

theorem slab_add (h : HeapAllocator) (k n : Nat) : slab h (k + n) = slab h k + n * slabSize := by
  unfold slab
  rw [add_mul, add_assoc]

theorem desc_apart {k j : Nat} (hkj : k ≠ j) :
    desc h k + descSize ≤ desc h j ∨ desc h j + descSize ≤ desc h k := by
  unfold desc descSize
  omega

/-- The region of a heap: `slots` descriptors, then the slabs, and an address space that
goes on for `most` slabs past the end. -/
structure Geometry (h : HeapAllocator) (slots most : Nat) : Prop where
  descs_pos : 0 < h.descs
  base_dvd : slabSize ∣ h.baseAddr
  descs_le : desc h slots ≤ h.baseAddr
  end_le : h.endAddr ≤ slab h slots
  top : h.endAddr + most * slabSize < 2 ^ 64
  most_lt : most < 2 ^ 32

/-- The machine holds the layout `L`. -/
structure Represents (slots most : Nat) (L : Layout blocksOf) (s : Machine) : Prop where
  geo : Geometry s.heap slots most
  bump_eq : s.heap.bump = slab s.heap L.carved
  bump_le : s.heap.bump ≤ s.heap.endAddr
  small : ∀ {k c free}, L.kind k = .small c free →
    (slabAt s.mem (desc s.heap k)).classIdx = c ∧
    (slabAt s.mem (desc s.heap k)).freeCount = free.length ∧
    Threaded s.mem (slabAt s.mem (desc s.heap k)).freeList (free.map (blockAddr s.heap c k))
  run : ∀ {k n used}, L.kind k = .run n used →
    (slabAt s.mem (desc s.heap k)).classIdx = largeClass ∧
    (slabAt s.mem (desc s.heap k)).nslabs = n
  partials : ∀ c, Threaded s.mem (s.heap.partials c) ((L.partials c).map (desc s.heap))
  freeRuns : Threaded s.mem s.heap.freeRuns (L.freeRuns.map (desc s.heap))

variable {slots most : Nat} {L : Layout blocksOf} {s : Machine} {k j c i n : Nat}

namespace Represents

variable (R : Represents slots most L s)
include R

theorem carved_le : L.carved ≤ slots := by
  have h1 := R.bump_eq
  have h2 := R.bump_le
  have h3 := R.geo.end_le
  unfold slab slabSize at *
  omega

theorem desc_le_base (hk : k < L.carved) : desc s.heap k + descSize ≤ s.heap.baseAddr := by
  have h1 := R.geo.descs_le
  have h2 := R.carved_le
  unfold desc descSize at *
  omega

theorem desc_pos : desc s.heap k ≠ 0 := by
  have := R.geo.descs_pos
  unfold desc
  omega

theorem slab_le_end (hk : k < L.carved) : slab s.heap k + slabSize ≤ s.heap.endAddr := by
  have h1 := slab_le_slab (h := s.heap) hk
  have h2 := R.bump_eq
  have h3 := R.bump_le
  omega

theorem end_lt : s.heap.endAddr < 2 ^ 64 := by
  have := R.geo.top
  omega

theorem base_le_end : s.heap.baseAddr ≤ s.heap.endAddr := by
  have h1 := R.bump_eq
  have h2 := R.bump_le
  unfold slab at h1
  omega

theorem base_pos : 0 < s.heap.baseAddr := by
  have h1 := R.geo.descs_pos
  have h2 := R.geo.descs_le
  unfold desc at h2
  omega

theorem desc_lt (hk : k < L.carved) : desc s.heap k < 2 ^ 64 := by
  have h1 := R.desc_le_base hk
  have h2 := R.base_le_end
  have h3 := R.end_lt
  omega

theorem slabOf_eq (hk : k ≤ L.carved) {off : Nat}
    (hoff : off < slabSize) : slabOf s.heap (slab s.heap k + off) = desc s.heap k := by
  have hle := R.carved_le
  have h1 := R.geo.descs_le
  have h2 := R.geo.top
  have h3 := R.bump_eq
  have h4 := R.bump_le
  have h5 := R.geo.end_le
  unfold slabOf u64 desc slab at *
  unfold slabSize descSize at *
  have hdiff : (s.heap.baseAddr + k * 65536 + off + 2 ^ 64 - s.heap.baseAddr) % 2 ^ 64
      = k * 65536 + off := by omega
  rw [hdiff, show (k * 65536 + off) / 65536 = k by omega]
  omega

theorem slabBase_eq (hk : k ≤ L.carved) : slabBase s.heap (desc s.heap k) = slab s.heap k := by
  have h2 := R.geo.top
  have h3 := R.bump_eq
  have h4 := R.bump_le
  unfold slabBase u64 desc slab at *
  unfold slabSize descSize at *
  rw [show (s.heap.descs + k * 32 - s.heap.descs) / 32 = k by omega]
  omega

end Represents

/-! ## The blocks that are handed out -/

/-- The bytes an extent takes. -/
def extentSize : Extent → Nat
  | .block c => classSize c
  | .slabs n => n * slabSize

/-- Where block `i` of slab `k` starts. -/
def addrOf (h : HeapAllocator) (k i : Nat) : Extent → Nat
  | .block c => blockAddr h c k i
  | .slabs _ => slab h k

theorem base_le_addrOf (h : HeapAllocator) (k i : Nat) (e : Extent) :
    h.baseAddr ≤ addrOf h k i e := by
  cases e <;> simp only [addrOf, blockAddr, slab] <;> omega

theorem used_le {e : Extent} (hu : L.Used k i e) :
    slab h k ≤ addrOf h k i e ∧ addrOf h k i e + extentSize e ≤ slab h L.carved := by
  cases e with
  | block c =>
    obtain ⟨free, hk, hi, -⟩ := hu
    have h1 := blockAddr_le (h := h) (k := k) hi
    have h2 := slab_le_slab (h := h) (Layout.lt_carved_of_small hk)
    exact ⟨Nat.le_add_right _ _, Nat.le_trans h1 h2⟩
  | slabs n =>
    have hr := L.run_ok hu.1
    have hmul : (k + n) * slabSize ≤ L.carved * slabSize := Nat.mul_le_mul_right _ hr.2.1
    rw [add_mul] at hmul
    simp only [addrOf, extentSize, slab]
    omega

theorem run_apart_block {used : Bool} {free : List Nat}
    (hk : L.kind k = .run n used) (hj : L.kind j = .small c free) (hi : i < blocksOf c) :
    slab h k + n * slabSize ≤ blockAddr h c j i ∨
      blockAddr h c j i + classSize c ≤ slab h k := by
  have h1 := blockAddr_le (h := h) (k := j) hi
  have h2 : slab h j ≤ blockAddr h c j i := Nat.le_add_right _ _
  rcases Layout.run_apart_small hk hj with hlt | hlt
  · left
    rw [← slab_add]
    have hmul : (k + n) * slabSize ≤ j * slabSize := Nat.mul_le_mul_right _ hlt
    unfold slab at *
    omega
  · right
    have := slab_le_slab (h := h) hlt
    omega

theorem block_apart_block {x y c' : Nat} {free free' : List Nat} (hk : L.kind k = .small c free)
    (hi : i < blocksOf c) (hx : L.kind x = .small c' free') (hy : y < blocksOf c')
    (hne : ¬ (k = x ∧ i = y)) :
    blockAddr h c k i + classSize c ≤ blockAddr h c' x y ∨
      blockAddr h c' x y + classSize c' ≤ blockAddr h c k i := by
  rcases eq_or_ne k x with rfl | hkx
  · rw [hk] at hx
    cases hx
    exact blockAddr_apart fun h => hne ⟨rfl, h⟩
  have h1 := blockAddr_le (h := h) (k := k) hi
  have h2 := blockAddr_le (h := h) (k := x) hy
  have h3 : slab h k ≤ blockAddr h c k i := Nat.le_add_right _ _
  have h4 : slab h x ≤ blockAddr h c' x y := Nat.le_add_right _ _
  rcases lt_or_gt_of_ne hkx with hlt | hlt
  · have := slab_le_slab (h := h) hlt
    omega
  · have := slab_le_slab (h := h) hlt
    omega

/-- **Two blocks that are handed out do not meet.** -/
theorem used_apart {x y : Nat} {e e' : Extent} (hu : L.Used k i e)
    (hu' : L.Used x y e') (hne : ¬ (k = x ∧ i = y)) :
    addrOf h k i e + extentSize e ≤ addrOf h x y e' ∨
      addrOf h x y e' + extentSize e' ≤ addrOf h k i e := by
  cases e with
  | block c =>
    obtain ⟨free, hk, hi, -⟩ := hu
    cases e' with
    | block c' =>
      obtain ⟨free', hx, hy, -⟩ := hu'
      exact block_apart_block hk hi hx hy hne
    | slabs n' => exact (run_apart_block hu'.1 hk hi).symm
  | slabs n =>
    cases e' with
    | block c' =>
      obtain ⟨free', hx, hy, -⟩ := hu'
      exact run_apart_block hu.1 hx hy
    | slabs n' =>
      have hkx : k ≠ x := fun h => hne ⟨h, by rw [hu.2, hu'.2]⟩
      simp only [addrOf, extentSize]
      rw [← slab_add, ← slab_add]
      rcases Layout.run_apart_run hu.1 hu'.1 hkx with hle | hle
      · left
        have hmul : (k + n) * slabSize ≤ x * slabSize := Nat.mul_le_mul_right _ hle
        unfold slab
        omega
      · right
        have hmul : (x + n') * slabSize ≤ k * slabSize := Nat.mul_le_mul_right _ hle
        unfold slab
        omega

/-! ## What a write leaves alone -/

/-- `m'` differs from `m` in the descriptors of `K` and in the bytes from `lo` to `hi` at
most. -/
def Touched (h : HeapAllocator) (K : Nat → Prop) (lo hi : Nat) (m m' : Buf) : Prop :=
  ∀ a, (∀ k, K k → a < desc h k ∨ desc h k + descSize ≤ a) → a < lo ∨ hi ≤ a → m' a = m a

namespace Touched

variable {h : HeapAllocator} {K : Nat → Prop} {lo hi : Nat} {m m' : Buf}

theorem slabAt (T : Touched h K lo hi m m') (hj : ¬ K j) (hlo : desc h j + descSize ≤ lo) :
    slabAt m' (desc h j) = slabAt m (desc h j) := by
  apply slabAt_congr
  intro a h1 h2
  apply T a
  · intro k hk
    have hne : k ≠ j := fun heq => hj (heq ▸ hk)
    have := desc_apart (h := h) hne
    omega
  · omega

theorem load (T : Touched h K lo hi m m') {a : Nat} (hK : ∀ k, K k → desc h k + descSize ≤ a)
    (ha : a + 8 ≤ lo ∨ hi ≤ a) : m'.load a 8 = m.load a 8 := by
  apply Buf.load_congr
  intro i hi'
  apply T
  · intro k hk
    have := hK k hk
    omega
  · omega

end Touched

end JuampiOs.Heap
