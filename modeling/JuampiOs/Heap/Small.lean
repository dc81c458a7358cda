import JuampiOs.Heap.Represent

/-!
# Small blocks

The steps of `alloc_small` and `free_small` on a heap that holds a layout: a fresh slab is
`Layout.addSlab`, taking a block and giving one back are `Layout.setFree` with the block
removed from or added to the slab's free list. Each step keeps `Represents`, and says which
bytes it writes.
-/

namespace JuampiOs.Heap

open Lib Function List Buf Layout

variable {slots most : Nat} {L : Layout blocksOf} {s : Machine} {k j c i n : Nat}
  {free : List Nat} {used : Bool}

/-- Two heaps over one region. -/
structure SameRegion (h h' : HeapAllocator) : Prop where
  base : h'.baseAddr = h.baseAddr
  last : h'.endAddr = h.endAddr
  descs : h'.descs = h.descs

namespace SameRegion

variable {h h' : HeapAllocator} (S : SameRegion h h')
include S

theorem desc_eq : desc h' = desc h := by
  funext k
  simp [desc, S.descs]

theorem slab_eq : slab h' = slab h := by
  funext k
  simp [slab, S.base]

theorem blockAddr_eq : blockAddr h' = blockAddr h := by
  funext c k i
  simp [blockAddr, S.slab_eq]

theorem addrOf_eq (k i : Nat) (e : Extent) : addrOf h' k i e = addrOf h k i e := by
  cases e <;> simp only [addrOf, S.blockAddr_eq, S.slab_eq]

end SameRegion

/-- What the descriptor of slab `j` and the slab itself hold of its use. -/
def Holds (h : HeapAllocator) (m : Buf) (j : Nat) : Kind → Prop
  | .small c free => (slabAt m (desc h j)).classIdx = c ∧
      (slabAt m (desc h j)).freeCount = free.length ∧
      Threaded m (slabAt m (desc h j)).freeList (free.map (blockAddr h c j))
  | .run n _ => (slabAt m (desc h j)).classIdx = largeClass ∧ (slabAt m (desc h j)).nslabs = n
  | _ => True

/-! ## Frames -/

namespace Represents

section Frame

variable (R : Represents slots most L s) {K : Nat → Prop} {lo hi : Nat} {m' : Buf}
  (T : Touched s.heap K lo hi s.mem m') (hlo : s.heap.baseAddr ≤ lo)
include R T hlo

theorem slabAt_frame (hj : ¬ K j) (hc : j < L.carved) :
    slabAt m' (desc s.heap j) = slabAt s.mem (desc s.heap j) :=
  T.slabAt hj (le_trans (R.desc_le_base hc) hlo)

omit hlo in
theorem threaded_frame {p : Nat} (hK : ∀ k, K k → k < slots)
    (hth : Threaded s.mem p (free.map (blockAddr s.heap c j)))
    (havoid : ∀ i ∈ free, blockAddr s.heap c j i + 8 ≤ lo ∨ hi ≤ blockAddr s.heap c j i) :
    Threaded m' p (free.map (blockAddr s.heap c j)) := by
  apply hth.frame
  intro a ha
  obtain ⟨i, hi, rfl⟩ := mem_map.mp ha
  apply T.load _ (havoid i hi)
  intro k hk
  -- the descriptors all lie in front of the slabs
  have h1 := R.geo.descs_le
  have h2 := hK k hk
  unfold desc descSize at *
  unfold blockAddr slab
  omega

/-- A slab whose descriptor and free blocks are not written holds what it did. -/
theorem holds_frame (hK : ∀ k, K k → k < slots) (hj : ¬ K j)
    (havoid : ∀ {c free i}, L.kind j = .small c free → i ∈ free →
      blockAddr s.heap c j i + 8 ≤ lo ∨ hi ≤ blockAddr s.heap c j i) :
    Holds s.heap m' j (L.kind j) := by
  cases hkind : L.kind j with
  | small c free =>
    obtain ⟨h1, h2, h3⟩ := R.small hkind
    unfold Holds
    rw [R.slabAt_frame T hlo hj (lt_carved_of_small hkind)]
    exact ⟨h1, h2, R.threaded_frame T hK h3 fun i hi => havoid hkind hi⟩
  | run n used =>
    unfold Holds
    rw [R.slabAt_frame T hlo hj (lt_carved_of_run hkind)]
    exact R.run hkind
  | _ => trivial

/-- A list of descriptors is still there when the links that were written are as before. -/
theorem descs_frame {p : Nat} {l : List Nat} (hth : Threaded s.mem p (l.map (desc s.heap)))
    (hl : ∀ j ∈ l, j < L.carved)
    (hnext : ∀ j ∈ l, K j → (slabAt m' (desc s.heap j)).next = (slabAt s.mem (desc s.heap j)).next) :
    Threaded m' p (l.map (desc s.heap)) := by
  apply hth.frame
  intro a ha
  obtain ⟨j, hj, rfl⟩ := mem_map.mp ha
  by_cases hK : K j
  · exact hnext j hj hK
  · exact congrArg Slab.next (R.slabAt_frame T hlo hK (hl j hj))

theorem partials_frame (hnot : ∀ j ∈ L.partials c, ¬ K j) :
    Threaded m' (s.heap.partials c) ((L.partials c).map (desc s.heap)) :=
  R.descs_frame T hlo (R.partials c) (fun _ => lt_carved_of_listed)
    fun j hj hK => (hnot j hj hK).elim

theorem freeRuns_frame (hnot : ∀ j ∈ L.freeRuns, ¬ K j) :
    Threaded m' s.heap.freeRuns (L.freeRuns.map (desc s.heap)) :=
  R.descs_frame T hlo R.freeRuns (fun _ => lt_carved_of_freeRun)
    fun j hj hK => (hnot j hj hK).elim

end Frame

variable {m' : Buf} (R : Represents slots most L s)
include R

/-- **What a step has to show** of the layout it leads to. -/
theorem rebuild {L' : Layout blocksOf} {bump runs : Nat}
    {partials : Nat → Nat} (hbump : bump = slab s.heap L'.carved)
    (hend : slab s.heap L'.carved ≤ s.heap.endAddr)
    (hholds : ∀ j, Holds s.heap m' j (L'.kind j))
    (hpart : ∀ c, Threaded m' (partials c) ((L'.partials c).map (desc s.heap)))
    (hruns : Threaded m' runs (L'.freeRuns.map (desc s.heap))) :
    Represents slots most L' ⟨{ s.heap with bump, partials, freeRuns := runs }, m'⟩ := by
  obtain ⟨h1, h2, h3, h4, h5, h6⟩ := R.geo
  refine ⟨⟨h1, h2, h3, h4, h5, h6⟩, hbump, by rw [hbump]; exact hend, fun {j c free} hkind => ?_,
    fun {j n used} hkind => ?_, hpart, hruns⟩
  · have hj := hholds j
    rwa [hkind] at hj
  · have hj := hholds j
    rwa [hkind] at hj

theorem carved_le_end :
    slab s.heap L.carved ≤ s.heap.endAddr := R.bump_eq ▸ R.bump_le

theorem frame {lo hi : Nat}
    (T : Touched s.heap (fun _ => False) lo hi s.mem m') (hlo : s.heap.baseAddr ≤ lo)
    (havoid : ∀ {j c free i}, L.kind j = .small c free → i ∈ free →
      blockAddr s.heap c j i + 8 ≤ lo ∨ hi ≤ blockAddr s.heap c j i) :
    Represents slots most L ⟨s.heap, m'⟩ :=
  R.rebuild R.bump_eq R.carved_le_end
    (fun _ => R.holds_frame T hlo (fun _ h => h.elim) (fun h => h) havoid)
    (fun _ => R.partials_frame T hlo fun _ _ h => h) (R.freeRuns_frame T hlo fun _ _ h => h)

omit R in
/-- The free blocks of another slab lie outside slab `k`. -/
theorem free_apart {h : HeapAllocator} (hkind : L.kind j = .small c free) (hi : i ∈ free)
    (hjk : j ≠ k) : blockAddr h c j i + 8 ≤ slab h k ∨ slab h k + slabSize ≤ blockAddr h c j i := by
  have hin := blockAddr_le (h := h) (k := j) ((L.small_ok hkind).2.2.2 i hi)
  have h16 := (classSize_spec (L.small_ok hkind).2.1).2.1
  have hge : slab h j ≤ blockAddr h c j i := Nat.le_add_right _ _
  rcases lt_or_gt_of_ne hjk with hlt | hlt
  · have := slab_le_slab (h := h) hlt
    omega
  · have := slab_le_slab (h := h) hlt
    omega

theorem lt_slots (hk : k < L.carved) : ∀ j, j = k → j < slots := by
  rintro j rfl
  exact lt_of_lt_of_le hk R.carved_le

/-- **Changing a free list.** The descriptor of slab `k` and bytes of the slab were
written; its free list is now `free'` and the list of its class follows. -/
theorem setFree (hk : L.kind k = .small c free)
    {free' : List Nat} (hnd : free'.Nodup) (hlt : ∀ i ∈ free', i < blocksOf c) {lo hi head : Nat}
    (T : Touched s.heap (· = k) lo hi s.mem m')
    (hlo : slab s.heap k ≤ lo) (hhi : hi ≤ slab s.heap k + slabSize)
    (hholds : Holds s.heap m' k (.small c free'))
    (hpart : Threaded m' head (((L.setFree hk free' hnd hlt).partials c).map (desc s.heap))) :
    Represents slots most (L.setFree hk free' hnd hlt)
      ⟨{ s.heap with partials := update s.heap.partials c head }, m'⟩ := by
  have hbase : s.heap.baseAddr ≤ lo := le_trans (Nat.le_add_right _ _) hlo
  refine R.rebuild R.bump_eq R.carved_le_end (fun j => ?_) (fun c' => ?_) ?_
  · rcases eq_or_ne j k with rfl | hj
    · simp only [setFree, update_self]
      exact hholds
    · simp only [Layout.setFree, update_of_ne hj]
      apply R.holds_frame T hbase (R.lt_slots (lt_carved_of_small hk)) hj
      intro c' free'' i hkind hi'
      have := free_apart (h := s.heap) hkind hi' hj
      omega
  · rcases eq_or_ne c' c with rfl | hc
    · rw [update_self]
      exact hpart
    · rw [update_of_ne hc, show (L.setFree hk free' hnd hlt).partials c' = L.partials c' from
        update_of_ne hc _ _]
      apply R.partials_frame T hbase
      rintro j hj rfl
      exact hc ((mem_partials_small hk).mp hj).1.symm
  · apply R.freeRuns_frame T hbase
    rintro j hj rfl
    obtain ⟨n, hkind⟩ := L.mem_freeRuns.mp hj
    rw [hk] at hkind
    cases hkind

/-! ## Taking a block -/

/-- What `takeBlock` leaves in memory before it clears the block: the descriptor has the
rest of the free list, and a slab that is now full is unlinked. -/
def takenMem (m : Buf) (slab blk count : Nat) : Buf :=
  let m' := setFreeCount (setFreeList m slab (m.load blk 8)) slab count
  if count = 0 then setNext m' slab 0 else m'

variable {m : Buf}

omit R in
theorem slabAt_takenMem {slab blk count : Nat} (hcount : count < 2 ^ 32) :
    slabAt (takenMem m slab blk count) slab =
      { slabAt m slab with
        freeList := m.load blk 8
        freeCount := count
        next := if count = 0 then 0 else (slabAt m slab).next } := by
  have hload : u64 (m.load blk 8) = m.load blk 8 := Nat.mod_eq_of_lt (m.load_lt blk 8)
  have hc : u32 count = count := Nat.mod_eq_of_lt hcount
  have hzero : u64 0 = 0 := rfl
  unfold takenMem
  split <;> simp [hload, hc, hzero]

omit R in
theorem takenMem_of_notMem {slab blk count a : Nat}
    (h : a < slab ∨ slab + descSize ≤ a) : takenMem m slab blk count a = m a := by
  unfold takenMem
  split
  · rw [setNext_of_notMem h, setFreeCount_of_notMem h, setFreeList_of_notMem h]
  · rw [setFreeCount_of_notMem h, setFreeList_of_notMem h]

theorem freeCount_lt (hk : L.kind k = .small c free) :
    free.length < 2 ^ 32 := by
  rw [← (R.small hk).2.1]
  exact s.mem.load_lt (desc s.heap k + 20) 4

theorem takeBlock_eq (hk : L.kind k = .small c (i :: free)) :
    takeBlock s c (desc s.heap k) n =
      (blockAddr s.heap c k i,
        ⟨{ s.heap with
            partials := update s.heap.partials c
              (if free = [] then (slabAt s.mem (desc s.heap k)).next else s.heap.partials c) },
        (takenMem s.mem (desc s.heap k) (blockAddr s.heap c k i) free.length).fill
          (blockAddr s.heap c k i) n⟩) := by
  obtain ⟨-, hcount, hlist⟩ := R.small hk
  obtain ⟨⟨hblk, -⟩, -⟩ := threaded_cons.mp hlist
  have hlen : free.length + 1 < 2 ^ 32 := R.freeCount_lt hk
  have hdec : u32 (free.length + 1 + 2 ^ 32 - 1) = free.length := by
    unfold u32
    omega
  have hsmall : u32 free.length = free.length := Nat.mod_eq_of_lt (by omega)
  unfold takeBlock takenMem
  simp only [hblk, slabAt_setFreeList, slabAt_setFreeCount, hcount, length_cons, hdec, hsmall,
    length_eq_zero_iff]
  split
  · rfl
  · rw [update_eq_self]

/-- **Taking a block.** The first free block of the first slab of its class is handed out,
with `n` bytes cleared. -/
theorem takeBlock_spec (hk : L.kind k = .small c (i :: free))
    (hhead : ∃ rest, L.partials c = k :: rest) (hn : n ≤ classSize c) :
    ∃ s' hnd hlt, takeBlock s c (desc s.heap k) n = (blockAddr s.heap c k i, s') ∧
      Represents slots most (L.setFree hk free hnd hlt) s' ∧ SameRegion s.heap s'.heap ∧
      Touched s.heap (· = k) (blockAddr s.heap c k i) (blockAddr s.heap c k i + n) s.mem s'.mem ∧
      ∀ a, blockAddr s.heap c k i ≤ a → a < blockAddr s.heap c k i + n → s'.mem a = 0 := by
  obtain ⟨hkc, hpos, hnd, hlt⟩ := L.small_ok hk
  obtain ⟨hi, hnd'⟩ := nodup_cons.mp hnd
  have hlt' : ∀ j ∈ free, j < blocksOf c := fun j hj => hlt j (mem_cons_of_mem i hj)
  obtain ⟨hclass, hcount, hlist⟩ := R.small hk
  obtain ⟨-, hrest⟩ := threaded_cons.mp hlist
  have hblk := blockAddr_le (h := s.heap) (k := k) (hlt i mem_cons_self)
  have hge : slab s.heap k ≤ blockAddr s.heap c k i := Nat.le_add_right _ _
  have hdesc := R.desc_le_base hkc
  have hbase : s.heap.baseAddr ≤ blockAddr s.heap c k i :=
    Nat.le_trans (Nat.le_add_right _ _) hge
  have hapart : ∀ j ∈ free, blockAddr s.heap c k j + 8 ≤ blockAddr s.heap c k i ∨
      blockAddr s.heap c k i + n ≤ blockAddr s.heap c k j := by
    intro j hj
    have hne : i ≠ j := fun h => hi (h ▸ hj)
    have := blockAddr_apart (h := s.heap) (c := c) (k := k) hne
    have := (classSize_spec hpos).2.1
    omega
  have heq := R.takeBlock_eq (n := n) hk
  generalize blockAddr s.heap c k i = p at *
  have T : Touched s.heap (· = k) p (p + n) s.mem
      ((takenMem s.mem (desc s.heap k) p free.length).fill p n) := by
    intro a ha hrange
    rw [fill_of_notMem hrange, takenMem_of_notMem (ha k rfl)]
  -- clearing the block does not reach the descriptor
  have hslab : slabAt ((takenMem s.mem (desc s.heap k) p free.length).fill p n) (desc s.heap k) =
      slabAt (takenMem s.mem (desc s.heap k) p free.length) (desc s.heap k) := by
    apply slabAt_congr
    intro a h1 h2
    exact fill_of_notMem (by omega)
  rw [slabAt_takenMem (Nat.lt_of_succ_lt (R.freeCount_lt hk))] at hslab
  refine ⟨_, hnd', hlt', heq, R.setFree hk hnd' hlt' T hge (by omega) ?_ ?_, ⟨rfl, rfl, rfl⟩, T,
    fun a h1 h2 => fill_of_mem ⟨h1, h2⟩⟩
  · unfold Holds
    rw [hslab]
    exact ⟨hclass, rfl, R.threaded_frame T (R.lt_slots hkc) hrest hapart⟩
  · obtain ⟨rest, hparts⟩ := hhead
    have hth := R.partials c
    by_cases hempty : free = []
    · simp only [Layout.setFree, hempty, ↓reduceIte, update_self, hparts, erase_cons_head]
      rw [hparts, map_cons, threaded_cons] at hth
      have hndp := L.partials_nodup c
      rw [hparts] at hndp
      rw [hempty] at T
      apply R.descs_frame T hbase hth.2
      · intro j hj
        exact lt_carved_of_listed (hparts ▸ mem_cons_of_mem k hj)
      · rintro j hj rfl
        exact absurd hj (nodup_cons.mp hndp).1
    · simp only [Layout.setFree, hempty, ↓reduceIte, update_self]
      apply R.descs_frame T hbase hth fun _ => lt_carved_of_listed
      rintro j - rfl
      rw [hslab]
      exact if_neg (by simpa using hempty)

/-! ## Giving a block back -/

/-- What `free_small` leaves in memory: the block links to the old free list, and a slab
that was full is linked in front of `head`. -/
def givenMem (m : Buf) (slab p count head : Nat) : Buf :=
  let m' := setFreeCount (setFreeList (m.store p 8 (slabAt m slab).freeList) slab p) slab count
  if count = 1 then setNext m' slab head else m'

omit R in
theorem slabAt_store_after {slab p : Nat} (hapart : slab + descSize ≤ p) (v : Nat) :
    slabAt (m.store p 8 v) slab = slabAt m slab := by
  apply slabAt_congr
  intro a h1 h2
  exact store_of_notMem (by omega)

omit R in
theorem slabAt_givenMem {slab p count head : Nat} (hp : p < 2 ^ 64)
    (hapart : slab + descSize ≤ p) (hcount : count < 2 ^ 32) (hhead : head < 2 ^ 64) :
    slabAt (givenMem m slab p count head) slab =
      { slabAt m slab with
        freeList := p
        freeCount := count
        next := if count = 1 then head else (slabAt m slab).next } := by
  have hslab := slabAt_store_after (m := m) hapart
  have h1 : u64 p = p := Nat.mod_eq_of_lt hp
  have h2 : u32 count = count := Nat.mod_eq_of_lt hcount
  have h3 : u64 head = head := Nat.mod_eq_of_lt hhead
  unfold givenMem
  split <;> simp [hslab, h1, h2, h3]

omit R in
theorem givenMem_of_notMem {slab p count head a : Nat} (h : a < slab ∨ slab + descSize ≤ a) :
    givenMem m slab p count head a = m.store p 8 (slabAt m slab).freeList a := by
  unfold givenMem
  split
  · rw [setNext_of_notMem h, setFreeCount_of_notMem h, setFreeList_of_notMem h]
  · rw [setFreeCount_of_notMem h, setFreeList_of_notMem h]

/-- The nodes of a list are descriptors, so the pointer to it is an address. -/
theorem head_lt {p : Nat} {l : List Nat}
    (hth : Threaded s.mem p (l.map (desc s.heap))) (hl : ∀ j ∈ l, j < L.carved) : p < 2 ^ 64 := by
  rcases hth.head with ⟨h0, -⟩ | hmem
  · omega
  · obtain ⟨j, hj, hj'⟩ := mem_map.mp hmem
    rw [← hj']
    exact R.desc_lt (hl j hj)

theorem partials_lt : s.heap.partials c < 2 ^ 64 :=
  R.head_lt (R.partials c) fun _ => lt_carved_of_listed

omit R in
theorem length_free_le (hnd : free.Nodup) (hlt : ∀ i ∈ free, i < blocksOf c) :
    free.length ≤ slabSize := by
  have hsub : free ⊆ range (blocksOf c) := fun i hi => mem_range.mpr (hlt i hi)
  have hlen := (subperm_of_subset hnd hsub).length_le
  rw [length_range] at hlen
  exact Nat.le_trans hlen (Nat.div_le_self _ _)

theorem freeSmall_eq (hk : L.kind k = .small c free)
    {p : Nat} (hp : s.heap.baseAddr ≤ p) (hlen : free.length < slabSize) :
    freeSmall s (desc s.heap k) p =
      ⟨{ s.heap with
          partials := update s.heap.partials c
            (if free = [] then desc s.heap k else s.heap.partials c) },
        givenMem s.mem (desc s.heap k) p (free.length + 1) (s.heap.partials c)⟩ := by
  obtain ⟨hclass, hcount, -⟩ := R.small hk
  have hslab := slabAt_store_after (m := s.mem)
    (le_trans (R.desc_le_base (lt_carved_of_small hk)) hp)
  have hinc : u32 (free.length + 1) = free.length + 1 := by
    unfold u32 slabSize at *
    omega
  unfold freeSmall givenMem
  simp only [slabAt_setFreeList, slabAt_setFreeCount, hslab, hcount, hclass, hinc,
    length_eq_zero_iff, add_eq_right]
  split
  · rfl
  · rw [update_eq_self]

/-- **Giving a block back.** `free_small` pushes the block onto its slab's free list. -/
theorem freeSmall_spec (hk : L.kind k = .small c free)
    (hi : i < blocksOf c) (hfree : i ∉ free) :
    ∃ s' hnd hlt, freeSmall s (desc s.heap k) (blockAddr s.heap c k i) = s' ∧
      Represents slots most (L.setFree hk (i :: free) hnd hlt) s' ∧ SameRegion s.heap s'.heap ∧
      Touched s.heap (· = k) (blockAddr s.heap c k i) (blockAddr s.heap c k i + 8)
        s.mem s'.mem := by
  obtain ⟨hkc, hpos, hnd, hlt⟩ := L.small_ok hk
  have hnd' : (i :: free).Nodup := nodup_cons.mpr ⟨hfree, hnd⟩
  have hlt' : ∀ j ∈ i :: free, j < blocksOf c := by
    intro j hj
    rcases mem_cons.mp hj with rfl | hj
    · exact hi
    · exact hlt j hj
  have hlen : free.length < slabSize := length_free_le hnd' hlt'
  have h16 := (classSize_spec hpos).2.1
  have hblk := blockAddr_le (h := s.heap) (k := k) hi
  have hge : slab s.heap k ≤ blockAddr s.heap c k i := Nat.le_add_right _ _
  have hbase : s.heap.baseAddr ≤ blockAddr s.heap c k i :=
    Nat.le_trans (Nat.le_add_right _ _) hge
  have hdesc := R.desc_le_base hkc
  have hend := R.slab_le_end hkc
  have htop := R.end_lt
  have hbpos := R.base_pos
  have hcount : free.length + 1 < 2 ^ 32 := by
    unfold slabSize at hlen
    omega
  have hapart : ∀ b ∈ free.map (blockAddr s.heap c k), Apart b (blockAddr s.heap c k i) := by
    intro b hb
    obtain ⟨j, hj, rfl⟩ := mem_map.mp hb
    have hne : i ≠ j := fun h => hfree (h ▸ hj)
    have hap := blockAddr_apart (h := s.heap) (c := c) (k := k) hne
    unfold Apart
    omega
  have heq := R.freeSmall_eq hk hbase hlen
  generalize hp : blockAddr s.heap c k i = p at *
  have hslab := @slabAt_givenMem s.mem (desc s.heap k) p _ _ (by omega) (by omega) hcount
    (R.partials_lt (c := c))
  obtain ⟨hclass, -, hlist⟩ := R.small hk
  have T : Touched s.heap (· = k) p (p + 8) s.mem
      (givenMem s.mem (desc s.heap k) p (free.length + 1) (s.heap.partials c)) := by
    intro a ha hrange
    rw [givenMem_of_notMem (ha k rfl), store_of_notMem hrange]
  refine ⟨_, hnd', hlt', heq, R.setFree hk hnd' hlt' T hge (by omega) ?_ ?_, ⟨rfl, rfl, rfl⟩, T⟩
  · unfold Holds
    rw [hslab]
    refine ⟨hclass, rfl, ?_⟩
    rw [map_cons, hp]
    -- the push itself, then the writes to the descriptor
    have hpush := hlist.push (a := p) (by omega) (s.mem.load_lt _ 8) hapart
    apply hpush.frame
    intro b hb
    have hbb : s.heap.baseAddr ≤ b := by
      rcases mem_cons.mp hb with rfl | hb
      · exact hbase
      · obtain ⟨j, -, rfl⟩ := mem_map.mp hb
        unfold blockAddr slab
        omega
    apply load_congr
    intro x hx
    exact givenMem_of_notMem (by omega)
  · by_cases hempty : free = []
    · subst hempty
      simp only [Layout.setFree, reduceCtorEq, ↓reduceIte, update_self, map_cons]
      rw [threaded_cons]
      refine ⟨⟨rfl, R.desc_pos⟩, ?_⟩
      rw [show Buf.load _ (desc s.heap k) 8 = s.heap.partials c from congrArg Slab.next hslab]
      apply R.partials_frame T hbase
      rintro j hj rfl
      exact ((mem_partials_small hk).mp hj).2 rfl
    · simp only [Layout.setFree, reduceCtorEq, hempty, ↓reduceIte, update_self]
      apply R.descs_frame T hbase (R.partials c) fun _ => lt_carved_of_listed
      rintro j - rfl
      rw [hslab]
      exact if_neg (by simpa using hempty)

/-! ## A fresh slab -/

variable {d : Nat}

/-- **Carving.** Unless the region is used up, `carve` hands out the next `n` slabs: the
bound check does not wrap while `n` stays within `most`. -/
theorem carve_spec (hn : n ≤ most) {h' : HeapAllocator}
    (h : carve s.heap n = .ok (d, h')) :
    d = desc s.heap L.carved ∧ h' = { s.heap with bump := slab s.heap (L.carved + n) } ∧
      slab s.heap (L.carved + n) ≤ s.heap.endAddr := by
  have hmul : n * slabSize ≤ most * slabSize := Nat.mul_le_mul_right _ hn
  have htop := R.geo.top
  have hle := R.bump_le
  have hsum : u64 (s.heap.bump + n * slabSize) = slab s.heap (L.carved + n) := by
    rw [slab_add, ← R.bump_eq]
    exact Nat.mod_eq_of_lt (by omega)
  have hof : slabOf s.heap (slab s.heap L.carved + 0) = desc s.heap L.carved :=
    R.slabOf_eq (le_refl _) (by decide)
  rw [add_zero, ← R.bump_eq] at hof
  unfold carve at h
  rw [hsum, hof] at h
  split at h
  · cases h
  · cases h
    exact ⟨rfl, rfl, by omega⟩

omit R in
/-- The loop threads the first `i` blocks in front of the list it is given, and writes
nothing but them. -/
theorem threadBlocks_spec {base bs : Nat} (hbs : 8 ≤ bs) (hbase : 0 < base) {i fl : Nat}
    {l : List Nat} (htop : base + i * bs ≤ 2 ^ 64) (hfl : fl < 2 ^ 64) (hth : Threaded m fl l)
    (hafter : ∀ b ∈ l, base + i * bs ≤ b) :
    Threaded (threadBlocks base bs i fl m).2 (threadBlocks base bs i fl m).1
        ((List.range i).map (fun j => base + j * bs) ++ l) ∧
      ∀ a, a < base ∨ base + i * bs ≤ a → (threadBlocks base bs i fl m).2 a = m a := by
  induction i generalizing fl m l with
  | zero => exact ⟨hth, fun _ _ => rfl⟩
  | succ i ih =>
    rw [add_mul, one_mul] at htop hafter
    have haddr : u64 (base + i * bs) = base + i * bs := Nat.mod_eq_of_lt (by omega)
    have hpush : Threaded (m.store (base + i * bs) 8 fl) (base + i * bs) ((base + i * bs) :: l) := by
      apply hth.push (by omega) hfl
      intro b hb
      have := hafter b hb
      unfold Apart
      omega
    have hafter' : ∀ b ∈ (base + i * bs) :: l, base + i * bs ≤ b := by
      intro b hb
      rcases mem_cons.mp hb with rfl | hb
      · exact le_refl _
      · have := hafter b hb
        omega
    obtain ⟨h1, h2⟩ := ih (by omega) (by omega) hpush hafter'
    simp only [threadBlocks, haddr, add_mul, one_mul]
    constructor
    · rw [range_succ, map_append, map_singleton, append_assoc, singleton_append]
      exact h1
    · intro a ha
      rw [h2 a (by omega), store_of_notMem (by omega)]

/-- The memory of `freshSlab` once the blocks are threaded. -/
def freshMem (m : Buf) (slab fl count c : Nat) : Buf :=
  setNext (setNslabs (setClassIdx (setFreeCount (setFreeList m slab fl) slab count) slab c) slab 1)
    slab 0

omit R in
theorem slabAt_freshMem {slab fl count c : Nat} :
    slabAt (freshMem m slab fl count c) slab = ⟨0, u64 fl, u32 c, u32 count, 1⟩ := by
  simp [freshMem, u64, u32]

omit R in
theorem freshMem_of_notMem {slab fl count c a : Nat}
    (h : a < slab ∨ slab + descSize ≤ a) : freshMem m slab fl count c a = m a := by
  rw [freshMem, setNext_of_notMem h, setNslabs_of_notMem h, setClassIdx_of_notMem h,
    setFreeCount_of_notMem h, setFreeList_of_notMem h]

omit R in
theorem freshSlab_of_carve {h' : HeapAllocator} (h : carve s.heap 1 = .ok (d, h')) :
    freshSlab s c = .ok (d, ⟨{ h' with partials := update h'.partials c d },
      freshMem (threadBlocks (slabBase h' d) (classSize c) (blocksOf c) 0 s.mem).2 d
        (threadBlocks (slabBase h' d) (classSize c) (blocksOf c) 0 s.mem).1 (blocksOf c) c⟩) := by
  unfold freshSlab
  rw [h]
  rfl

variable {s' : Machine}

theorem freshSlab_eq (hmost : 1 ≤ most)
    (h : freshSlab s c = .ok (d, s')) :
    d = desc s.heap L.carved ∧ slab s.heap (L.carved + 1) ≤ s.heap.endAddr ∧
      s' = ⟨{ s.heap with
          bump := slab s.heap (L.carved + 1)
          partials := update s.heap.partials c (desc s.heap L.carved) },
        freshMem (threadBlocks (slab s.heap L.carved) (classSize c) (blocksOf c) 0 s.mem).2
          (desc s.heap L.carved)
          (threadBlocks (slab s.heap L.carved) (classSize c) (blocksOf c) 0 s.mem).1
          (blocksOf c) c⟩ := by
  obtain ⟨⟨d', h'⟩, hcarve, -⟩ := bind_eq_ok.mp h
  rw [freshSlab_of_carve hcarve] at h
  obtain ⟨rfl, rfl, hend⟩ := R.carve_spec hmost hcarve
  have hbase := R.slabBase_eq (le_refl L.carved)
  cases h
  exact ⟨rfl, hend, by rw [← hbase]; rfl⟩

/-- **Adding a slab.** The next descriptor and slab were written; the descriptor threads all
the blocks of the slab and the slab is alone in the list of its class. -/
theorem addSlab (hc : 0 < blocksOf c) (hnone : L.partials c = [])
    (hend : slab s.heap (L.carved + 1) ≤ s.heap.endAddr)
    (T : Touched s.heap (· = L.carved) (slab s.heap L.carved) (slab s.heap (L.carved + 1)) s.mem m')
    (hnext : (slabAt m' (desc s.heap L.carved)).next = 0)
    (hholds : Holds s.heap m' L.carved (.small c (List.range (blocksOf c)))) :
    Represents slots most (L.addSlab c hc) ⟨{ s.heap with
      bump := slab s.heap (L.carved + 1)
      partials := update s.heap.partials c (desc s.heap L.carved) }, m'⟩ := by
  have hbase : s.heap.baseAddr ≤ slab s.heap L.carved := Nat.le_add_right _ _
  have hslot : L.carved < slots := by
    have h1 := R.geo.end_le
    unfold slab slabSize at *
    omega
  refine R.rebuild rfl hend (fun k => ?_) (fun c' => ?_) ?_
  · rcases eq_or_ne k L.carved with rfl | hk
    · simp only [Layout.addSlab, update_self]
      exact hholds
    · simp only [Layout.addSlab, update_of_ne hk]
      apply R.holds_frame T hbase (fun _ h => h ▸ hslot) hk
      intro c' free i hkind hi
      have := free_apart (h := s.heap) hkind hi hk
      rw [slab_add]
      omega
  · rcases eq_or_ne c' c with rfl | hc'
    · simp only [Layout.addSlab, update_self, hnone, map_cons, map_nil]
      rw [threaded_cons, threaded_nil]
      exact ⟨⟨rfl, R.desc_pos⟩, hnext⟩
    · simp only [Layout.addSlab, update_of_ne hc']
      exact R.partials_frame T hbase fun _ hj => ne_of_lt (lt_carved_of_listed hj)
  · exact R.freeRuns_frame T hbase fun _ hj => ne_of_lt (lt_carved_of_freeRun hj)

/-- **A fresh slab.** It is the next of the region, cut into free blocks of its class, and
the only one in the list of the class. -/
theorem freshSlab_spec (hc : 0 < blocksOf c) (hmost : 1 ≤ most)
    (hnone : L.partials c = []) (h : freshSlab s c = .ok (d, s')) :
    d = desc s.heap L.carved ∧ Represents slots most (L.addSlab c hc) s' ∧
      SameRegion s.heap s'.heap ∧
      Touched s.heap (· = L.carved) (slab s.heap L.carved) (slab s.heap (L.carved + 1))
        s.mem s'.mem := by
  obtain ⟨rfl, hend, rfl⟩ := R.freshSlab_eq hmost h
  obtain ⟨hc18, h16, -⟩ := classSize_spec hc
  have hmul := blocksOf_mul_le c
  have hnext : slab s.heap (L.carved + 1) = slab s.heap L.carved + slabSize := by
    rw [slab_add, one_mul]
  have hbase : s.heap.baseAddr ≤ slab s.heap L.carved := Nat.le_add_right _ _
  have hdesc : desc s.heap L.carved + descSize ≤ s.heap.baseAddr := by
    have h1 := R.geo.descs_le
    have h2 := R.geo.end_le
    unfold desc descSize slab slabSize at *
    omega
  have htop := R.end_lt
  obtain ⟨hth, hkeep⟩ := threadBlocks_spec (m := s.mem) (i := blocksOf c)
    (show 8 ≤ classSize c by omega) (lt_of_lt_of_le R.base_pos hbase)
    (by omega) (show 0 < 2 ^ 64 by decide) (threaded_nil.mpr rfl) (fun _ h => nomatch h)
  rw [append_nil] at hth
  generalize threadBlocks (slab s.heap L.carved) (classSize c) (blocksOf c) 0 s.mem = r at *
  have T : Touched s.heap (· = L.carved) (slab s.heap L.carved) (slab s.heap (L.carved + 1)) s.mem
      (freshMem r.2 (desc s.heap L.carved) r.1 (blocksOf c) c) := by
    intro a ha hrange
    rw [freshMem_of_notMem (ha _ rfl), hkeep a (by omega)]
  have hfl : u64 r.1 = r.1 := by
    apply Nat.mod_eq_of_lt
    obtain ⟨hzero, -⟩ | hmem := hth.head
    · omega
    · obtain ⟨j, hj, hj'⟩ := mem_map.mp hmem
      have hin := blockAddr_le (h := s.heap) (k := L.carved) (mem_range.mp hj)
      unfold blockAddr at hin
      omega
  have hcount : u32 (blocksOf c) = blocksOf c := by
    have hle : blocksOf c ≤ slabSize := Nat.div_le_self _ _
    exact Nat.mod_eq_of_lt (by unfold slabSize at hle; omega)
  refine ⟨rfl, R.addSlab hc hnone hend T (by rw [slabAt_freshMem]) ?_, ⟨rfl, rfl, rfl⟩, T⟩
  unfold Holds
  rw [slabAt_freshMem, hfl, hcount]
  refine ⟨Nat.mod_eq_of_lt (by omega), length_range.symm, ?_⟩
  apply Threaded.frame hth
  intro a ha
  obtain ⟨j, -, rfl⟩ := mem_map.mp ha
  apply load_congr
  intro x _
  exact freshMem_of_notMem (by omega)

end Represents

/-! ## The allocation as a whole -/

/-- What an allocation of `n` bytes that returns `p` leaves: block `i` of slab `k` is handed
out with extent `e`, its first `n` bytes are zero, and every block that was handed out
before still is, with the bytes it had. -/
structure Allocated (slots most : Nat) (L : Layout blocksOf) (s : Machine) (n p : Nat)
    (L' : Layout blocksOf) (s' : Machine) (k i : Nat) (e : Extent) : Prop where
  rep : Represents slots most L' s'
  same : SameRegion s.heap s'.heap
  ptr : p = addrOf s.heap k i e
  used : ∀ {x y e'}, L'.Used x y e' ↔ L.Used x y e' ∨ (x = k ∧ y = i ∧ e' = e)
  fresh : ∀ {e'}, ¬ L.Used k i e'
  size : n ≤ extentSize e
  zero : ∀ a, p ≤ a → a < p + n → s'.mem a = 0
  keep : ∀ {x y e'}, L.Used x y e' → ∀ a, addrOf s.heap x y e' ≤ a →
    a < addrOf s.heap x y e' + extentSize e' → s'.mem a = s.mem a

theorem sizeToClass_spec (hn : n ≤ maxSmall) :
    0 < blocksOf (sizeToClass n) ∧ n ≤ classSize (sizeToClass n) := by
  have hall : ∀ c, c < 18 → 0 < blocksOf c := by decide
  unfold sizeToClass
  cases hfind : classSizes.findIdx? fun size => decide (n ≤ size) with
  | none =>
    rw [findIdx?_eq_none_iff] at hfind
    have hlast := hfind 8192 (by decide)
    simp [maxSmall] at hlast hn
    omega
  | some c =>
    obtain ⟨hlt, hle, -⟩ := findIdx?_eq_some_iff_getElem.mp hfind
    refine ⟨hall c hlt, ?_⟩
    rw [classSize, getD_eq_getElem _ _ hlt]
    exact of_decide_eq_true hle

/-- Bytes of a handed out block are outside what a step wrote when the step wrote
descriptors and a range that the block does not meet. -/
theorem Touched.keep {m m' : Buf} {lo hi : Nat} {K : Nat → Prop} {h : HeapAllocator}
    (T : Touched h K lo hi m m') (hK : ∀ k, K k → desc h k + descSize ≤ h.baseAddr)
    {x y : Nat} {e : Extent} (hapart : hi ≤ addrOf h x y e ∨ addrOf h x y e + extentSize e ≤ lo)
    {a : Nat} (h1 : addrOf h x y e ≤ a) (h2 : a < addrOf h x y e + extentSize e) :
    m' a = m a := by
  apply T
  · intro k hk
    have := hK k hk
    have := base_le_addrOf h x y e
    omega
  · omega

namespace Represents

theorem takeBlock_allocated (R : Represents slots most L s)
    (hk : L.kind k = .small c (i :: free)) (hhead : ∃ rest, L.partials c = k :: rest)
    (hn : n ≤ classSize c) :
    ∃ L', Allocated slots most L s n (takeBlock s c (desc s.heap k) n).1 L'
      (takeBlock s c (desc s.heap k) n).2 k i (.block c) := by
  obtain ⟨s', hnd, hlt, heq, R', S, T, hzero⟩ := R.takeBlock_spec hk hhead hn
  rw [heq]
  have hfresh : ∀ {e'}, ¬ L.Used k i e' := not_used_of_free hk mem_cons_self
  refine ⟨L.setFree hk free hnd hlt, R', S, rfl, used_take, hfresh, hn, hzero, ?_⟩
  intro x y e' hu a h1 h2
  have hne : ¬ (x = k ∧ y = i) := by
    rintro ⟨rfl, rfl⟩
    exact hfresh hu
  have hnew : (L.setFree hk free hnd hlt).Used k i (.block c) :=
    used_take.mpr (.inr ⟨rfl, rfl, rfl⟩)
  have hold : (L.setFree hk free hnd hlt).Used x y e' := used_take.mpr (.inl hu)
  have hapart := used_apart (h := s.heap) hold hnew hne
  apply T.keep _ _ h1 h2
  · rintro _ rfl
    exact R.desc_le_base (lt_carved_of_small hk)
  · simp only [addrOf, extentSize] at hapart ⊢
    omega

/-- **`alloc_small`.** -/
theorem allocSmall_spec (R : Represents slots most L s) (hmost : 1 ≤ most) (hn : n ≤ maxSmall)
    {p : Nat} {s' : Machine} (h : allocSmall s n = .ok (p, s')) :
    ∃ L' k i e, Allocated slots most L s n p L' s' k i e := by
  obtain ⟨hc, hsize⟩ := sizeToClass_spec hn
  unfold allocSmall at h
  generalize sizeToClass n = c at h hc hsize
  dsimp only at h
  split at h
  · rename_i hzero
    -- no slab of the class has a free block
    have hnone : L.partials c = [] := by
      rcases (R.partials c).head with ⟨-, hnil⟩ | hmem
      · exact map_eq_nil_iff.mp hnil
      · obtain ⟨j, -, hj⟩ := mem_map.mp hmem
        exact absurd (hj.trans hzero) R.desc_pos
    obtain ⟨⟨d, s1⟩, hfresh, h⟩ := bind_eq_ok.mp h
    · rw [Except.ok.injEq] at h
      obtain ⟨rfl, R1, S1, T1⟩ := R.freshSlab_spec hc hmost hnone hfresh
      obtain ⟨i, free, hrange⟩ : ∃ i free, range (blocksOf c) = i :: free :=
        exists_cons_of_ne_nil (by rw [Ne, range_eq_nil]; omega)
      have hk : (L.addSlab c hc).kind L.carved = .small c (i :: free) := by
        simp only [Layout.addSlab, update_self, hrange]
      have hhead : ∃ rest, (L.addSlab c hc).partials c = L.carved :: rest :=
        ⟨L.partials c, by simp only [Layout.addSlab, update_self]⟩
      obtain ⟨L', A⟩ := R1.takeBlock_allocated hk hhead hsize
      rw [S1.desc_eq, h] at A
      have haddr := S1.addrOf_eq
      have hused : ∀ {x y e}, (L.addSlab c hc).Used x y e ↔ L.Used x y e := used_addSlab
      refine ⟨L', L.carved, i, .block c, A.rep, ?_, ?_, ?_, ?_, A.size, A.zero, ?_⟩
      · exact ⟨A.same.base.trans S1.base, A.same.last.trans S1.last, A.same.descs.trans S1.descs⟩
      · rw [← haddr]
        exact A.ptr
      · intro x y e'
        rw [A.used, hused]
      · intro e' hu
        exact A.fresh (hused.mpr hu)
      · intro x y e' hu a h1 h2
        have hkeep := A.keep (hused.mpr hu) a
        rw [haddr] at hkeep
        rw [hkeep h1 h2]
        apply T1.keep _ _ h1 h2
        · rintro _ rfl
          have h1 := R1.desc_le_base (k := L.carved) (Nat.lt_succ_self _)
          rwa [S1.desc_eq, S1.base] at h1
        · exact .inr (used_le hu).2
  · rename_i hne
    cases hparts : L.partials c with
    | nil =>
      have hth := R.partials c
      rw [hparts] at hth
      exact absurd (threaded_nil.mp hth) hne
    | cons k rest =>
      have hth := R.partials c
      rw [hparts, map_cons, threaded_cons] at hth
      obtain ⟨free', hk, hfree⟩ := L.mem_partials.mp
        (show k ∈ L.partials c by rw [hparts]; exact mem_cons_self)
      obtain ⟨i, free, rfl⟩ := exists_cons_of_ne_nil hfree
      obtain ⟨L', A⟩ := R.takeBlock_allocated hk ⟨rest, hparts⟩ hsize
      rw [hth.1.1, Except.ok.injEq] at h
      rw [h] at A
      exact ⟨L', k, i, .block c, A⟩

theorem allocSmall_stop {e : Stop} (h : allocSmall s n = .error e) : e = .outOfMemory := by
  unfold allocSmall at h
  dsimp only at h
  split at h
  · rcases bind_eq_error.mp h with hfresh | ⟨_, _, h⟩
    · rcases bind_eq_error.mp hfresh with hcarve | ⟨_, _, h⟩
      · exact carve_stop hcarve
      · cases h
    · cases h
  · cases h

end Represents

end JuampiOs.Heap
