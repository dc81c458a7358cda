import JuampiOs.Ext2.Grow

/-!
# Truncating files

`free_all_blocks` gives back the blocks of the direct pointers and of the single- and
double-indirect trees. On an inode of a consistent file system these are exactly the blocks at
the places below pointer 14, each freed once (`World.truncate`). On an inode whose pointers mean
something else, such as a symbolic link with its text in them, they are whatever is found by
taking these for block numbers (`freeAllBlocks_any`).
-/

namespace JuampiOs.Ext2

open Lib Function List View Spec Inode

variable {fs : Fs} {G : Layout fs} {v v' : View} {I : Nat → Option Inode} {ino : Inode} {x : Nat}

/-! ## Freeing a list of blocks -/

/-- The view after `free_block` on each block of the list. -/
def View.freeMany (fs : Fs) (v : View) (L : List Nat) : View := L.foldl (View.dropBlock fs) v

theorem freeMany_append (L M : List Nat) :
    v.freeMany fs (L ++ M) = (v.freeMany fs L).freeMany fs M := foldl_append

/-- Freeing touches bitmaps and block counters alone. -/
structure OnlyFrees (v v' : View) : Prop where
  data : v'.data = v.data
  inode : v'.inode = v.inode
  kept : InodesKept v v'

theorem onlyFrees_dropBlock (v : View) (b : Nat) : OnlyFrees v (v.dropBlock fs b) := by
  refine ⟨?_, ?_, InodesKept.dropBlock fs v b⟩
  · unfold dropBlock
    split <;> rfl
  · unfold dropBlock
    split <;> rfl

theorem onlyFrees_freeMany : ∀ (L : List Nat) (v : View), OnlyFrees v (v.freeMany fs L)
  | [], v => ⟨rfl, rfl, InodesKept.refl v⟩
  | b :: L, v => by
    have h1 : OnlyFrees v (v.dropBlock fs b) := onlyFrees_dropBlock v b
    have h2 := onlyFrees_freeMany L (v.dropBlock fs b)
    exact ⟨h2.data.trans h1.data, h2.inode.trans h1.inode, h1.kept.trans h2.kept⟩

theorem freeEach_exact : ∀ (bs : List Nat) (v : View),
    G.Exact (freeEach fs bs) v () (v.freeMany fs (bs.filter (· ≠ 0)))
  | [], v => Exact.ret ()
  | b :: bs, v => by
    unfold freeEach
    by_cases hb : b = 0
    · simp only [hb, ne_eq, not_true_eq_false, if_false, decide_false, Bool.false_eq_true,
        not_false_eq_true, filter_cons_of_neg]
      exact freeEach_exact bs v
    · simp only [hb, ne_eq, not_false_eq_true, if_true, decide_true, filter_cons_of_pos]
      refine Exact.seq (freeBlock_exact b) ?_
      exact freeEach_exact bs (v.dropBlock fs b)

/-- The blocks freed with a single-indirect block: those it points to, then itself. -/
def indList (fs : Fs) (data : Nat → Buf) (b : Nat) : List Nat :=
  (ptrsOf fs (data b)).filter (· ≠ 0) ++ [b]

/-- The blocks freed with the pointers of a double-indirect block. -/
def dblList (fs : Fs) (data : Nat → Buf) (bs : List Nat) : List Nat :=
  bs.flatMap fun b => if b = 0 then [] else indList fs data b

/-- What `free_all_blocks` leaves of an inode: the triple-indirect pointer alone. -/
def Inode.cleared (ino : Inode) : Inode :=
  { ino with block := fun i => if i.val < 14 then 0 else ino.block i, blocks := 0 }

/-- The blocks `free_all_blocks` frees, in order. -/
def freeList (fs : Fs) (data : Nat → Buf) (ino : Inode) : List Nat :=
  ((range 12).map ino.ptr).filter (· ≠ 0) ++
    ((if ino.ptr 12 = 0 then [] else indList fs data (ino.ptr 12)) ++
      (if ino.ptr 13 = 0 then []
        else dblList fs data (ptrsOf fs (data (ino.ptr 13))) ++ [ino.ptr 13]))

/-! ## Freeing what an inode points to -/

/-- The list of freed blocks is `M`, or goes astray at a block of `M` that holds no data: what is
read there is not what the file system says. -/
def Follows (G : Layout fs) (L M : List Nat) : Prop := L = M ∨ ∃ b ∈ L, b ∈ M ∧ ¬ G.IsData b

theorem Follows.refl (L : List Nat) : Follows G L L := .inl rfl

theorem Follows.append {L L' M M' : List Nat} (h : Follows G L M) (h' : Follows G L' M') :
    Follows G (L ++ L') (M ++ M') := by
  rcases h with rfl | ⟨b, hL, hM, hb⟩
  · rcases h' with rfl | ⟨b, hL, hM, hb⟩
    · exact .inl rfl
    · exact .inr ⟨b, mem_append_right _ hL, mem_append_right _ hM, hb⟩
  · exact .inr ⟨b, mem_append_left _ hL, mem_append_left _ hM, hb⟩

theorem freeMany_data (L : List Nat) (v : View) : (v.freeMany fs L).data = v.data :=
  (onlyFrees_freeMany L v).data

theorem freeIndirect_any (b : Nat) (v : View) : G.Spec (freeIndirect fs b) v fun _ v' =>
    ∃ L, Follows G L (indList fs v.data b) ∧ v' = v.freeMany fs L := by
  -- both ways of reading end with the block itself
  have hrest : ∀ buf : Buf, (buf = v.data b ∨ ¬ G.IsData b) → G.Spec (do
      freeEach fs (ptrsOf fs buf)
      freeBlock fs b) v fun _ v' => ∃ L, Follows G L (indList fs v.data b) ∧ v' = v.freeMany fs L := by
    intro buf hbuf
    refine Exact.seq (freeEach_exact _ v) (weaken (freeBlock_exact b) ?_)
    rintro _ w ⟨_, rfl⟩
    refine ⟨(ptrsOf fs buf).filter (· ≠ 0) ++ [b], ?_, (freeMany_append _ [b]).symm⟩
    rcases hbuf with rfl | hb
    · exact Follows.refl _
    · exact .inr ⟨b, by simp, by simp [indList], hb⟩
  by_cases hb : G.IsData b
  · exact Exact.seq (readBlock_data hb) (hrest _ (.inl rfl))
  · refine seq (readBlock_any b) ?_
    rintro _ w ⟨hw, buf, rfl⟩
    obtain rfl := hw.symm
    exact hrest buf (.inr hb)

theorem freeDouble_any : ∀ (bs : List Nat) (v : View), G.Spec (freeDouble fs bs) v fun _ v' =>
    ∃ L, Follows G L (dblList fs v.data bs) ∧ v' = v.freeMany fs L
  | [], v => ret ⟨[], Follows.refl _, rfl⟩
  | b :: bs, v => by
    unfold freeDouble dblList
    rw [flatMap_cons]
    by_cases hb : b = 0
    · simp only [hb, ne_eq, not_true_eq_false, if_false, if_true, nil_append]
      exact freeDouble_any bs v
    simp only [hb, ne_eq, not_false_eq_true, if_true, if_false]
    refine seq (freeIndirect_any b v) ?_
    rintro _ w ⟨L, hL, rfl⟩
    refine weaken (freeDouble_any bs _) ?_
    rintro _ w ⟨M, hM, rfl⟩
    rw [freeMany_data] at hM
    exact ⟨L ++ M, hL.append hM, (freeMany_append L M).symm⟩

/-- The double-indirect half of `free_all_blocks`, after `L₁` and `L` were freed. -/
theorem freeDoubleHalf_any (ino : Inode) (v : View) (L₁ : List Nat) {M L : List Nat}
    (hL : Follows G L M) : G.Spec
      (do
        if ino.ptr 13 ≠ 0 then
          if let some l1 ← readBlock (ino.ptr 13) then freeDouble fs (ptrsOf fs l1)
          freeBlock fs (ino.ptr 13)
        return ino.cleared) ((v.freeMany fs L₁).freeMany fs L) fun r v' => r = ino.cleared ∧
      ∃ L, Follows G L (L₁ ++ (M ++ (if ino.ptr 13 = 0 then []
        else dblList fs v.data (ptrsOf fs (v.data (ino.ptr 13))) ++ [ino.ptr 13]))) ∧
        v' = v.freeMany fs L := by
  by_cases h13 : ino.ptr 13 = 0
  · simp only [h13, ne_eq, not_true_eq_false, if_false, if_true, append_nil]
    exact ret ⟨rfl, L₁ ++ L, (Follows.refl L₁).append hL, (freeMany_append L₁ L).symm⟩
  simp only [h13, ne_eq, not_false_eq_true, if_true, if_false]
  have hrest : ∀ buf : Buf, (buf = v.data (ino.ptr 13) ∨ ¬ G.IsData (ino.ptr 13)) → G.Spec (do
      freeDouble fs (ptrsOf fs buf)
      freeBlock fs (ino.ptr 13)
      return ino.cleared) ((v.freeMany fs L₁).freeMany fs L) fun r v' => r = ino.cleared ∧
      ∃ L, Follows G L (L₁ ++ (M ++ (dblList fs v.data (ptrsOf fs (v.data (ino.ptr 13))) ++
        [ino.ptr 13]))) ∧ v' = v.freeMany fs L := by
    intro buf hbuf
    refine seq (freeDouble_any _ _) ?_
    rintro _ w ⟨K, hK, rfl⟩
    refine Exact.seq (freeBlock_exact _) (ret ⟨rfl, L₁ ++ (L ++ (K ++ [ino.ptr 13])), ?_, ?_⟩)
    · rw [freeMany_data, freeMany_data] at hK
      rcases hbuf with rfl | hb
      · exact (Follows.refl L₁).append (hL.append (hK.append (Follows.refl _)))
      · exact .inr ⟨ino.ptr 13, by simp, by simp, hb⟩
    · simp only [freeMany_append]
      rfl
  by_cases hb : G.IsData (ino.ptr 13)
  · refine Exact.seq (readBlock_data hb) ?_
    rw [freeMany_data, freeMany_data]
    exact hrest _ (.inl rfl)
  · refine seq (readBlock_any _) ?_
    rintro _ u ⟨hu, buf, rfl⟩
    obtain rfl := hu.symm
    exact hrest buf (.inr hb)

/-- **`free_all_blocks`**, whatever the pointers of the inode are. -/
theorem freeAllBlocks_any (ino : Inode) (v : View) :
    G.Spec (freeAllBlocks fs ino) v fun r v' => r = ino.cleared ∧
      ∃ L, Follows G L (freeList fs v.data ino) ∧ v' = v.freeMany fs L := by
  unfold freeAllBlocks freeList
  refine Exact.seq (freeEach_exact _ v) ?_
  by_cases h12 : ino.ptr 12 = 0
  · simp only [h12, ne_eq, not_true_eq_false, if_false, if_true]
    exact freeDoubleHalf_any ino v _ (Follows.refl [])
  simp only [h12, ne_eq, not_false_eq_true, if_true, if_false]
  refine seq (freeIndirect_any _ _) ?_
  rintro _ w ⟨L, hL, rfl⟩
  rw [freeMany_data] at hL
  exact freeDoubleHalf_any ino v _ hL

/-! ## The places that are freed -/

/-- The ways down a tree of this depth, those below a block before the block. -/
def ways (fs : Fs) : Nat → List (List Nat)
  | 0 => [[]]
  | depth + 1 => ((range fs.per).flatMap fun i => (ways fs depth).map (i :: ·)) ++ [[]]

theorem mem_ways {depth : Nat} {is : List Nat} :
    is ∈ ways fs depth ↔ is.length ≤ depth ∧ ∀ i ∈ is, i < fs.per := by
  induction depth generalizing is with
  | zero => cases is <;> simp [ways]
  | succ depth ih =>
    cases is with
    | nil => simp [ways]
    | cons i is =>
      simp [ways, ih]
      tauto

theorem nodup_ways (fs : Fs) : ∀ depth, (ways fs depth).Nodup
  | 0 => nodup_singleton _
  | depth + 1 => by
    refine nodup_append.mpr ⟨nodup_flatMap.mpr ⟨fun i _ => ?_, ?_⟩, nodup_singleton _, ?_⟩
    · exact (nodup_ways fs depth).map cons_injective
    · refine nodup_range.imp fun hij is hi hj => ?_
      obtain ⟨_, _, rfl⟩ := mem_map.mp hi
      obtain ⟨_, _, heq⟩ := mem_map.mp hj
      exact hij (cons.inj heq).1.symm
    · simp only [mem_flatMap, mem_map, mem_singleton]
      rintro _ ⟨_, _, _, _, rfl⟩ _ rfl
      exact cons_ne_nil _ _

/-- The blocks on the ways down from `b`. -/
def below (fs : Fs) (data : Nat → Buf) (depth b : Nat) : List Nat :=
  ((ways fs depth).map (walkPtr data b)).filter (· ≠ 0)

theorem below_zero (data : Nat → Buf) (depth : Nat) : below fs data depth 0 = [] := by
  simp [below, walkPtr_zero]

theorem below_leaf (data : Nat → Buf) : below fs data 0 = fun b => [b].filter (· ≠ 0) := rfl

theorem below_succ (data : Nat → Buf) (depth : Nat) {b : Nat} (hb : b ≠ 0) :
    below fs data (depth + 1) b =
      (ptrsOf fs (data b)).flatMap (below fs data depth) ++ [b] := by
  have hway : ∀ i, walkPtr data b ∘ (i :: ·) = walkPtr data (ptrAt (data b) i) := fun i => by
    funext is
    simp [walkPtr, hb]
  rw [below, ways, map_append, filter_append, map_flatMap, filter_flatMap, ptrsOf, flatMap_map]
  simp [hway, walkPtr, hb, below]

/-- The places below pointer 14, in the order in which they are freed. -/
def freedSlots (fs : Fs) : List PtrSlot :=
  (range 12).map (fun i => (i, [])) ++
    (((range fs.per).map (fun i => (12, [i])) ++ [(12, [])]) ++
      (((range fs.per).flatMap fun j =>
        (range fs.per).map (fun i => (13, [j, i])) ++ [(13, [j])]) ++ [(13, [])]))

theorem freedSlots_eq : freedSlots fs = (range 12).map (fun r => (r, [])) ++
    ((ways fs 1).map (Prod.mk 12) ++ (ways fs 2).map (Prod.mk 13)) := by
  simp [freedSlots, ways, map_flatMap, ← map_eq_flatMap, Function.comp_def]

theorem mem_freedSlots {σ : PtrSlot} : σ ∈ freedSlots fs ↔ SlotOk fs σ ∧ σ.1 < 14 := by
  obtain ⟨r, is⟩ := σ
  simp only [freedSlots_eq, mem_append, mem_map, mem_range, mem_ways, Prod.mk.injEq]
  constructor
  · rintro (⟨i, hi, rfl, rfl⟩ | ⟨is, ⟨h1, h2⟩, rfl, rfl⟩ | ⟨is, ⟨h1, h2⟩, rfl, rfl⟩)
    · exact ⟨slotOk_root (by omega), show i < 14 by omega⟩
    · exact ⟨⟨show 12 < 15 by decide, h1, h2⟩, show 12 < 14 by decide⟩
    · exact ⟨⟨show 13 < 15 by decide, h1, h2⟩, show 13 < 14 by decide⟩
  · rintro ⟨⟨_, hdepth, hindex⟩, h14⟩
    simp only at hdepth hindex h14
    by_cases h12 : r < 12
    · obtain rfl : is = [] := eq_nil_of_length_eq_zero (by omega)
      exact .inl ⟨r, h12, rfl, rfl⟩
    · obtain rfl | rfl : r = 12 ∨ r = 13 := by omega
      · exact .inr (.inl ⟨is, ⟨hdepth, hindex⟩, rfl, rfl⟩)
      · exact .inr (.inr ⟨is, ⟨hdepth, hindex⟩, rfl, rfl⟩)

theorem nodup_freedSlots (fs : Fs) : (freedSlots fs).Nodup := by
  rw [freedSlots_eq]
  refine nodup_append.mpr ⟨nodup_range.map fun _ _ h => (Prod.mk.inj h).1, nodup_append.mpr
    ⟨(nodup_ways fs 1).map (Prod.mk_right_injective 12),
      (nodup_ways fs 2).map (Prod.mk_right_injective 13), ?_⟩, ?_⟩
  · simp
  · simp only [mem_map, mem_range, mem_append]
    rintro _ ⟨r, hr, rfl⟩ τ hτ rfl
    simp only [Prod.mk.injEq] at hτ
    omega

theorem freeList_eq (data : Nat → Buf) (ino : Inode) :
    freeList fs data ino = ((freedSlots fs).map (ref data ino)).filter (· ≠ 0) := by
  have hind : below fs data 1 = fun b => if b = 0 then [] else indList fs data b := by
    funext b
    by_cases hb : b = 0
    · rw [if_pos hb, hb, below_zero]
    · rw [if_neg hb, below_succ data 0 hb, below_leaf, ← filter_flatMap, indList]
      simp
  have hdbl : below fs data 2 (ino.ptr 13) = if ino.ptr 13 = 0 then []
      else dblList fs data (ptrsOf fs (data (ino.ptr 13))) ++ [ino.ptr 13] := by
    by_cases h13 : ino.ptr 13 = 0
    · rw [if_pos h13, h13, below_zero]
    · rw [if_neg h13, below_succ data 1 h13, hind, dblList]
  unfold freeList
  rw [freedSlots_eq, map_append, map_append, filter_append, filter_append, map_map, map_map,
    map_map, ← hdbl, ← congrFun hind]
  rfl

/-! ## Truncation -/

theorem freeMany_spec : ∀ (L : List Nat) (v : View), L.Nodup →
    (∀ b ∈ L, v.bused b = true ∧ fs.HasBit b ∧ ¬ G.sys b ∧ b < fs.blocksCount) →
    BlockBits fs v → Reserved G v →
      BlockBits fs (v.freeMany fs L) ∧ Reserved G (v.freeMany fs L) ∧
        ∀ b, (v.freeMany fs L).bused b = true ↔ v.bused b = true ∧ b ∉ L
  | [], v, _, _, hbits, hres => ⟨hbits, hres, fun b => by simp [freeMany]⟩
  | b :: L, v, hnd, hL, hbits, hres => by
    obtain ⟨hnot, hnd⟩ := nodup_cons.mp hnd
    obtain ⟨hused, hbit, hsys, hlt⟩ := hL b mem_cons_self
    have hres' := hres.unuseBlock hsys hlt
    have hbits' := hbits.unuseBlock G hbit hused hres'
    have hview : v.freeMany fs (b :: L) = (v.unuseBlock fs b).freeMany fs L := by
      unfold freeMany
      rw [foldl_cons, dropBlock_of_hasBit hbit]
    have hL' : ∀ c ∈ L, (v.unuseBlock fs b).bused c = true ∧ fs.HasBit c ∧ ¬ G.sys c ∧
        c < fs.blocksCount := fun c hc => by
      have hcb : c ≠ b := fun heq => hnot (heq ▸ hc)
      obtain ⟨h1, h2⟩ := hL c (mem_cons_of_mem b hc)
      exact ⟨(update_of_ne hcb ..).trans h1, h2⟩
    obtain ⟨h1, h2, h3⟩ := freeMany_spec L _ hnd hL' hbits' hres'
    rw [hview]
    refine ⟨h1, h2, fun c => ?_⟩
    rw [h3, unuseBlock_bused, mem_cons]
    by_cases hcb : c = b <;> simp [hcb]

theorem Inode.ptr_cleared (ino : Inode) (r : Nat) :
    ino.cleared.ptr r = if r < 14 then 0 else ino.ptr r := by
  unfold ptr cleared
  by_cases hr : r < 15
  · by_cases h14 : r < 14 <;> simp [hr, h14]
  · simp [hr, show ¬ r < 14 by omega]

theorem mem_freeList (hx : I x = some ino) {data : Nat → Buf} {b : Nat} :
    b ∈ freeList fs data ino ↔ ∃ σ : PtrSlot, σ.1 < 14 ∧ At fs I data x σ b := by
  rw [freeList_eq, mem_filter, mem_map]
  constructor
  · rintro ⟨⟨σ, hσ, rfl⟩, h0⟩
    obtain ⟨hok, h14⟩ := mem_freedSlots.mp hσ
    exact ⟨σ, h14, (at_iff hx).mpr ⟨hok, rfl, by simpa using h0⟩⟩
  · rintro ⟨σ, h14, hat⟩
    obtain ⟨hok, hb, h0⟩ := (at_iff hx).mp hat
    exact ⟨⟨σ, mem_freedSlots.mpr ⟨hok, h14⟩, hb⟩, by simpa using h0⟩

theorem freeAllBlocks_exact (hm : Mapped G v ino) :
    G.Exact (freeAllBlocks fs ino) v ino.cleared (v.freeMany fs (freeList fs v.data ino)) := by
  refine weaken (freeAllBlocks_any ino v) ?_
  rintro r w ⟨rfl, L, hL | ⟨b, _, hb, hdata⟩, rfl⟩
  · exact ⟨rfl, by rw [hL]⟩
  · obtain ⟨σ, _, hat⟩ := (mem_freeList (I := fun _ => some ino) (x := 0) rfl).mp hb
    obtain ⟨hσ, rfl, h0⟩ := (at_iff rfl).mp hat
    exact absurd (hm σ hσ h0).1 hdata

theorem nodup_freeList (h : Blocks G I v) (hx : I x = some ino) :
    (freeList fs v.data ino).Nodup := by
  rw [freeList_eq, filter_map]
  refine Nodup.map_on ?_ ((nodup_freedSlots fs).filter _)
  intro σ hσ τ hτ heq
  obtain ⟨hσm, hσ0⟩ := mem_filter.mp hσ
  obtain ⟨hτm, hτ0⟩ := mem_filter.mp hτ
  have hσ0' : ref v.data ino σ ≠ 0 := by simpa using hσ0
  have h1 : At fs I v.data x σ (ref v.data ino σ) :=
    (at_iff hx).mpr ⟨(mem_freedSlots.mp hσm).1, rfl, hσ0'⟩
  have h2 : At fs I v.data x τ (ref v.data ino σ) :=
    (at_iff hx).mpr ⟨(mem_freedSlots.mp hτm).1, heq.symm, hσ0'⟩
  exact (h.inj h1 h2).2

/-- **Truncation**: the blocks below pointer 14 are free, and stand nowhere any more. -/
theorem World.truncate (h : World G I v) (hx : I x = some ino) :
    World G (update I x (some ino.cleared)) (v.freeMany fs (freeList fs v.data ino)) ∧
      ∀ c, Leaked G (update I x (some ino.cleared))
        (v.freeMany fs (freeList fs v.data ino)) c ↔ Leaked G I v c := by
  obtain ⟨hbits, hres, hused⟩ := freeMany_spec (G := G) (freeList fs v.data ino) v
    (nodup_freeList h.blocks hx) (fun b hb => by
      obtain ⟨σ, _, hat⟩ := (mem_freeList hx).mp hb
      exact ⟨h.blocks.used hat, h.blocks.hasBit hat, h.blocks.not_sys hat, h.blocks.lt hat⟩)
    h.bits h.reserved
  have hfrees : OnlyFrees v (v.freeMany fs (freeList fs v.data ino)) := onlyFrees_freeMany _ v
  generalize v.freeMany fs (freeList fs v.data ino) = w at hbits hres hused hfrees ⊢
  -- what still stands somewhere is what was not freed
  have hat : ∀ y σ b, At fs (update I x (some ino.cleared)) w.data y σ b ↔
      At fs I v.data y σ b ∧ b ∉ freeList fs v.data ino := fun y σ b => by
    rw [hfrees.data]
    by_cases hy : y = x
    · subst hy
      rw [at_iff (update_self ..)]
      constructor
      · rintro ⟨hσ, hb, h0⟩
        unfold ref at hb
        rw [ptr_cleared] at hb
        by_cases h14 : σ.1 < 14
        · rw [if_pos h14, walkPtr_zero] at hb
          exact absurd hb.symm h0
        rw [if_neg h14] at hb
        have hbat : At fs I v.data y σ b := (at_iff hx).mpr ⟨hσ, hb, h0⟩
        refine ⟨hbat, fun hmem => ?_⟩
        obtain ⟨τ, hτ, hat⟩ := (mem_freeList hx).mp hmem
        obtain ⟨_, rfl⟩ := h.blocks.inj hbat hat
        exact h14 hτ
      · rintro ⟨hb, hnot⟩
        obtain ⟨hσ, href, h0⟩ := (at_iff hx).mp hb
        refine ⟨hσ, ?_, h0⟩
        have h14 : ¬ σ.1 < 14 := fun h14 => hnot ((mem_freeList hx).mpr ⟨σ, h14, hb⟩)
        unfold ref at href ⊢
        rw [ptr_cleared, if_neg h14]
        exact href
    · have hsame : At fs (update I x (some ino.cleared)) v.data y σ b ↔
          At fs I v.data y σ b := by
        unfold At
        rw [update_of_ne hy]
      rw [hsame]
      refine ⟨fun hb => ⟨hb, fun hmem => ?_⟩, fun hb => hb.1⟩
      obtain ⟨τ, _, hat⟩ := (mem_freeList hx).mp hmem
      exact hy (h.blocks.inj hb hat).1
  refine ⟨⟨h.blocks.mono fun {y σ b} hb => ?_, hbits, hres⟩, fun c => ?_⟩
  · obtain ⟨hb, hnot⟩ := (hat y σ b).mp hb
    exact ⟨hb, (hused b).mpr ⟨h.blocks.used hb, hnot⟩⟩
  · have howned : Owned fs (update I x (some ino.cleared)) w.data c ↔
        Owned fs I v.data c ∧ c ∉ freeList fs v.data ino := by
      simp [Owned, hat]
    have hin : c ∈ freeList fs v.data ino → Owned fs I v.data c := fun hmem => by
      obtain ⟨σ, _, hat⟩ := (mem_freeList hx).mp hmem
      exact ⟨x, σ, hat⟩
    unfold Leaked
    rw [howned, hused]
    tauto

end JuampiOs.Ext2
