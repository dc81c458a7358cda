import JuampiOs.Ext2.Files

/-!
# Growing files

A block that `alloc_block` has taken stands nowhere at first; `set_block_of` gives it a place in
the inode's trees. The rules here say what that does to the logical blocks of the file, and that
the blocks of every other inode are left alone.
-/

namespace JuampiOs.Ext2

open Lib Function List Option Buf Spec

variable {fs : Fs} {G : Layout fs} {v v' : View} {I : Nat → Option Inode} {ino : Inode} {x : Nat}

/-- Take block `b` and store to it. -/
def View.fresh (fs : Fs) (v : View) (b : Nat) (buf : Buf) : View := (v.useBlock fs b).setData b buf

/-! ## What block-level functions leave alone -/

/-- The allocation state of inodes is as it was. -/
structure InodesKept (v v' : View) : Prop where
  iused : v'.iused = v.iused
  freeInodesCount : ∀ g, (v'.gd g).freeInodesCount = (v.gd g).freeInodesCount
  usedDirsCount : ∀ g, (v'.gd g).usedDirsCount = (v.gd g).usedDirsCount
  freeInodes : v'.counts.freeInodes = v.counts.freeInodes

/-- The allocation state of blocks is as it was. -/
structure BlocksKept (v v' : View) : Prop where
  bused : v'.bused = v.bused
  freeBlocksCount : ∀ g, (v'.gd g).freeBlocksCount = (v.gd g).freeBlocksCount
  freeBlocks : v'.counts.freeBlocks = v.counts.freeBlocks

namespace InodesKept

theorem refl (v : View) : InodesKept v v := ⟨rfl, fun _ => rfl, fun _ => rfl, rfl⟩

theorem trans {v'' : View} (h : InodesKept v v') (h' : InodesKept v' v'') : InodesKept v v'' :=
  ⟨h'.iused.trans h.iused, fun g => (h'.freeInodesCount g).trans (h.freeInodesCount g),
    fun g => (h'.usedDirsCount g).trans (h.usedDirsCount g), h'.freeInodes.trans h.freeInodes⟩

theorem setData (v : View) (b : Nat) (buf : Buf) : InodesKept v (v.setData b buf) :=
  ⟨rfl, fun _ => rfl, fun _ => rfl, rfl⟩

theorem setInode (v : View) (x : Nat) (ino : Inode) : InodesKept v (v.setInode x ino) :=
  ⟨rfl, fun _ => rfl, fun _ => rfl, rfl⟩

private theorem update_gd {α : Type} (f : GroupDesc → α) (n : UInt16) (v : View) (g h : Nat)
    (hf : ∀ gd : GroupDesc, f { gd with freeBlocksCount := n } = f gd) :
    f (update v.gd g { v.gd g with freeBlocksCount := n } h) = f (v.gd h) := by
  by_cases hg : h = g
  · subst hg
    rw [update_self, hf]
  · rw [update_of_ne hg]

theorem useBlock (fs : Fs) (v : View) (b : Nat) : InodesKept v (v.useBlock fs b) :=
  ⟨rfl, fun h => update_gd (·.freeInodesCount) _ v _ h fun _ => rfl,
    fun h => update_gd (·.usedDirsCount) _ v _ h fun _ => rfl, rfl⟩

theorem unuseBlock (fs : Fs) (v : View) (b : Nat) : InodesKept v (v.unuseBlock fs b) :=
  ⟨rfl, fun h => update_gd (·.freeInodesCount) _ v _ h fun _ => rfl,
    fun h => update_gd (·.usedDirsCount) _ v _ h fun _ => rfl, rfl⟩

theorem fresh (fs : Fs) (v : View) (b : Nat) (buf : Buf) : InodesKept v (v.fresh fs b buf) :=
  (useBlock fs v b).trans (setData _ b buf)

theorem dropBlock (fs : Fs) (v : View) (b : Nat) : InodesKept v (v.dropBlock fs b) := by
  unfold View.dropBlock
  split
  · exact refl v
  · exact unuseBlock fs v b

theorem inodeBits (h : InodesKept v v') (hb : InodeBits fs v) : InodeBits fs v' :=
  hb.congr h.iused h.freeInodesCount h.freeInodes

end InodesKept

theorem BlocksKept.setData (v : View) (b : Nat) (buf : Buf) : BlocksKept v (v.setData b buf) :=
  ⟨rfl, fun _ => rfl, rfl⟩

theorem BlocksKept.refl (v : View) : BlocksKept v v := ⟨rfl, fun _ => rfl, rfl⟩

theorem World.of_at (h : World G I v) (hk : BlocksKept v v') {I' : Nat → Option Inode}
    (hat : ∀ {y σ b}, At fs I' v'.data y σ b → At fs I v.data y σ b) : World G I' v' :=
  ⟨h.blocks.mono fun hb => ⟨hat hb, by rw [hk.bused]; exact h.blocks.used (hat hb)⟩,
    h.bits.congr hk.bused hk.freeBlocksCount hk.freeBlocks, h.reserved.congr hk.bused⟩

/-! ## Blocks that stand nowhere -/

variable {b : Nat}

theorem Leaked.ne_zero (h : Leaked G I v b) : b ≠ 0 := by
  rintro rfl
  refine h.2.2.2.1 ?_
  have hsb : sbBlk fs.blockSize = 0 := by
    have := h.1.1
    rw [← G.firstDataBlock]
    omega
  rw [← hsb]
  exact G.sys_sb

theorem Leaked.isData (h : Leaked G I v b) : G.IsData b :=
  Layout.isData_of_not_sys h.2.2.2.1

theorem Leaked.lt (h : Leaked G I v b) : b < 2 ^ 32 := h.2.1.trans G.blocksCount_lt

namespace World

theorem at_store (I : Nat → Option Inode) {data data' : Nat → Buf}
    (hb : ¬ Owned fs I data b) (hdata : ∀ c, c ≠ b → data' c = data c) (y : Nat) (σ : PtrSlot)
    (c : Nat) : At fs I data' y σ c ↔ At fs I data y σ c := by
  refine at_congr rfl (fun τ d hd _ => hdata d ?_) σ c
  rintro rfl
  exact hb ⟨y, τ, hd⟩

variable {b : Nat}

section

variable (h : World G I v)
include h

section

variable (hb : v.Free fs b)
include hb

theorem not_owned : ¬ Owned fs I v.data b :=
  h.blocks.not_owned_of_free hb.2

theorem fresh_at (buf : Buf) (y : Nat) (σ : PtrSlot) (c : Nat) :
    At fs I (v.fresh fs b buf).data y σ c ↔ At fs I v.data y σ c :=
  at_store I (h.not_owned hb) (fun _ hc => update_of_ne hc _ _) y σ c

theorem fresh (buf : Buf) : World G I (v.fresh fs b buf) := by
  have hat := h.fresh_at hb buf
  refine ⟨h.blocks.mono fun {y σ c} hc => ⟨(hat _ _ _).mp hc, ?_⟩, ?_, ?_⟩
  · show update v.bused b true c = true
    by_cases hcb : c = b
    · rw [hcb, update_self]
    · rw [update_of_ne hcb]
      exact h.blocks.used ((hat _ _ _).mp hc)
  · exact (h.bits.useBlock G hb.1 hb.2).congr rfl (fun _ => rfl) rfl
  · exact (h.reserved.useBlock b).congr rfl

theorem leaked_fresh (buf : Buf) (c : Nat) :
    Leaked G I (v.fresh fs b buf) c ↔ Leaked G I v c ∨ c = b := by
  have hown : ∀ c, Owned fs I (v.fresh fs b buf).data c ↔ Owned fs I v.data c := fun c =>
    exists_congr fun y => exists_congr fun σ => h.fresh_at hb buf y σ c
  unfold Leaked
  rw [hown]
  by_cases hcb : c = b
  · subst hcb
    have hused : (v.fresh fs c buf).bused c = true := update_self ..
    simp only [hused, or_true, iff_true]
    exact ⟨hb.1, h.reserved.lt hb, trivial, h.reserved.not_sys hb, h.not_owned hb⟩
  · have hused : (v.fresh fs b buf).bused c = v.bused c := update_of_ne hcb ..
    simp only [hused, hcb, or_false]

theorem fileBlk_fresh (buf : Buf) (hx : I x = some ino) (i : Nat) :
    fileBlk fs (v.fresh fs b buf).data ino i = fileBlk fs v.data ino i := by
  unfold fileBlk
  cases hi : fileSlot fs i with
  | none => rfl
  | some σ =>
    refine ref_congr (fun τ hτ _ hτ0 => update_of_ne ?_ _ _) σ (fileSlot_ok hi)
    intro heq
    exact h.not_owned hb ⟨x, τ, (at_iff hx).mpr ⟨hτ, heq, heq ▸ hτ0⟩⟩

end

theorem drop (hb : Leaked G I v b) : World G I (v.dropBlock fs b) := by
  obtain ⟨hbit, hlt, hused, hsys, hown⟩ := hb
  rw [dropBlock_of_hasBit hbit]
  have hres := h.reserved.unuseBlock hsys hlt
  refine ⟨h.blocks.mono fun {y σ c} hc => ⟨hc, ?_⟩, h.bits.unuseBlock G hbit hused hres, hres⟩
  show update v.bused b false c = true
  rw [update_of_ne]
  · exact h.blocks.used hc
  · rintro rfl
    exact hown ⟨_, _, hc⟩

end

theorem leaked_drop (hb : Leaked G I v b) (c : Nat) :
    Leaked G I (v.dropBlock fs b) c ↔ Leaked G I v c ∧ c ≠ b := by
  rw [dropBlock_of_hasBit hb.1]
  by_cases hcb : c = b
  · subst hcb
    have hused : (v.unuseBlock fs c).bused c = false := update_self ..
    simp [Leaked, hused]
  · have hused : (v.unuseBlock fs b).bused c = v.bused c := update_of_ne hcb ..
    simp [Leaked, hused, hcb]

/-- **A block that stood nowhere gets a place.** -/
theorem attach (h : World G I v) (hx : I x = some ino) (hb : Leaked G I v b) {σ₀ : PtrSlot}
    (hσ₀ : SlotOk fs σ₀) (hempty : ref v.data ino σ₀ = 0) (ino' : Inode) (hk : BlocksKept v v')
    (href : ∀ σ, SlotOk fs σ → ref v'.data ino' σ = if σ = σ₀ then b else ref v.data ino σ)
    (hother : ∀ y σ c, y ≠ x → At fs I v.data y σ c → v'.data c = v.data c) :
    World G (update I x (some ino')) v' ∧
      ∀ c, Leaked G (update I x (some ino')) v' c ↔ Leaked G I v c ∧ c ≠ b := by
  have hb0 := hb.ne_zero
  obtain ⟨hbit, hlt, hused, hsys, hown⟩ := hb
  have hx' : update I x (some ino') x = some ino' := update_self ..
  have hat : ∀ y σ c, At fs (update I x (some ino')) v'.data y σ c ↔
      At fs I v.data y σ c ∨ (y = x ∧ σ = σ₀ ∧ c = b) := fun y σ c => by
    by_cases hy : y = x
    swap
    · rw [at_congr (update_of_ne hy ..) fun τ d hd _ => hother y τ d hy hd]
      simp [hy]
    subst hy
    rw [at_iff hx', at_iff hx]
    constructor
    · rintro ⟨hσ, hc, hc0⟩
      rw [href σ hσ] at hc
      split at hc
      · exact .inr ⟨rfl, by assumption, hc.symm⟩
      · exact .inl ⟨hσ, hc, hc0⟩
    · rintro (⟨hσ, hc, hc0⟩ | ⟨_, rfl, rfl⟩)
      · refine ⟨hσ, ?_, hc0⟩
        rw [href σ hσ, if_neg, hc]
        rintro rfl
        exact hc0 (hc.symm.trans hempty)
      · exact ⟨hσ₀, by rw [href _ hσ₀, if_pos rfl], hb0⟩
  refine ⟨⟨h.blocks.attach x b σ₀ (fun hc => (hat _ _ _).mp hc)
    (fun c hc => by rw [hk.bused]; exact hc) hown (by rw [hk.bused]; exact hused) hsys hlt,
    h.bits.congr hk.bused hk.freeBlocksCount hk.freeBlocks, h.reserved.congr hk.bused⟩, fun c => ?_⟩
  · have howned : Owned fs (update I x (some ino')) v'.data c ↔
        Owned fs I v.data c ∨ c = b := by
      simp [Owned, hat, exists_or]
    unfold Leaked
    rw [howned, hk.bused]
    tauto

end World

/-! ## `set_block_of` -/

/-- The same inode up to its block pointers and block count. -/
def Inode.SameShape (a b : Inode) : Prop :=
  ∃ block blocks, b = { a with block := block, blocks := blocks }

theorem Inode.SameShape.refl (a : Inode) : a.SameShape a := ⟨_, _, rfl⟩

theorem Inode.SameShape.trans {a b c : Inode} (h : a.SameShape b) (h' : b.SameShape c) :
    a.SameShape c := by
  obtain ⟨_, _, rfl⟩ := h
  obtain ⟨_, _, rfl⟩ := h'
  exact ⟨_, _, rfl⟩

theorem ref_setPtr (fs : Fs) (data : Nat → Buf) {r : Nat} (hr : r < 15) (hb : b < 2 ^ 32)
    (h0 : ino.ptr r = 0) (hleaf : ∀ i is, SlotOk fs (r, i :: is) → ptrAt (data b) i = 0) :
    ∀ σ, SlotOk fs σ →
      ref data (ino.setPtr r b) σ = if σ = (r, []) then b else ref data ino σ := by
  rintro ⟨s, is⟩ hσ
  unfold ref
  rw [Inode.ptr_setPtr hr hb]
  by_cases hs : s = r
  · subst hs
    rw [if_pos rfl]
    cases is with
    | nil => rw [if_pos rfl]; rfl
    | cons i is =>
      rw [if_neg (by simp), h0, walkPtr_zero]
      unfold walkPtr
      rw [hleaf i is hσ, walkPtr_zero]
      exact ite_self _
  · rw [if_neg hs, if_neg fun h => hs (Prod.mk.inj h).1]

theorem ref_putWord (h : Blocks G I v) (hx : I x = some ino) (h0 : ino.ptr 12 ≠ 0) {k : Nat}
    {buf : Buf}
    (hbuf : ∀ j, j < fs.per →
      ptrAt buf j = if j = k then b else ptrAt (v.data (ino.ptr 12)) j) :
    ∀ σ, SlotOk fs σ → ref (update v.data (ino.ptr 12) buf) ino σ =
      if σ = (12, [k]) then b else ref v.data ino σ := by
  have hind : At fs I v.data x (12, []) (ino.ptr 12) :=
    (at_iff hx).mpr ⟨slotOk_root (by decide), rfl, h0⟩
  rintro ⟨r, is⟩ hσ
  by_cases hr : r = 12
  · subst hr
    have hlen : is.length ≤ 1 := hσ.depth
    cases is with
    | nil => rw [if_neg (by simp)]; rfl
    | cons j is =>
      obtain rfl : is = [] := by
        cases is with
        | nil => rfl
        | cons _ _ => simp at hlen
      have hj : j < fs.per := hσ.index j mem_cons_self
      unfold ref walkPtr
      simp only [if_neg h0, walkPtr, update_self]
      rw [hbuf j hj]
      simp
  · rw [if_neg fun h => hr (Prod.mk.inj h).1]
    refine ref_congr_root (r := r) (fun js hjs _ hjs0 => update_of_ne ?_ _ _) is hσ
    intro heq
    have hat : At fs I v.data x (r, js) (ino.ptr 12) := (at_iff hx).mpr ⟨hjs, heq, h0⟩
    exact hr (Prod.mk.inj (h.inj hat hind).2).1

variable {n : Nat}

theorem fileBlk_of_ref {data data' : Nat → Buf} {σ₀ : PtrSlot} (hn : fileSlot fs n = some σ₀)
    (href : ∀ σ, SlotOk fs σ → ref data' ino' σ = if σ = σ₀ then b else ref data ino σ) (i : Nat) :
    fileBlk fs data' ino' i = if i = n then b else fileBlk fs data ino i := by
  unfold fileBlk
  cases hi : fileSlot fs i with
  | none =>
    have hin : i ≠ n := by
      rintro rfl
      rw [hi] at hn
      cases hn
    rw [if_neg hin]
  | some σ =>
    simp only
    rw [href σ (fileSlot_ok hi)]
    by_cases hin : i = n
    · subst hin
      rw [hi] at hn
      rw [if_pos (some.inj hn), if_pos rfl]
    · rw [if_neg hin, if_neg]
      rintro rfl
      exact hin (fileSlot_inj hi hn)

/-- Logical block `n` of inode `x` is now `blk`, which stood nowhere before. Among the blocks in
use only the single-indirect block is stored to. -/
structure Placed (G : Layout fs) (x : Nat) (I : Nat → Option Inode) (v : View) (ino : Inode)
    (n blk : Nat) (ino' : Inode) (v' : View) : Prop where
  world : World G (update I x (some ino')) v'
  leaked : ∀ c, Leaked G (update I x (some ino')) v' c ↔ Leaked G I v c ∧ c ≠ blk
  kept : InodesKept v v'
  inode : v'.inode = v.inode
  shape : ino.SameShape ino'
  blk : ∀ i, fileBlk fs v'.data ino' i = if i = n then blk else fileBlk fs v.data ino i
  data : ∀ c, v.bused c = true → c ≠ ino.ptr 12 → v'.data c = v.data c

/-- When `set_block_of` fails: out of its range, or without a block for the pointers. -/
def CannotMap (fs : Fs) (v : View) (ino : Inode) (n : Nat) : Prop :=
  12 + fs.per ≤ n ∨ (12 ≤ n ∧ ino.ptr 12 = 0 ∧ ∀ b, ¬ v.Free fs b)

theorem setIndirect_spec (h : World G I v) (hx : I x = some ino) {blk : Nat}
    (hblk : Leaked G I v blk) (hge : 12 ≤ n) (hlt : n - 12 < fs.per) (h0 : ino.ptr 12 ≠ 0)
    (hempty : fileBlk fs v.data ino n = 0) :
    G.Spec (setIndirect fs ino (n - 12) blk) v fun r v' =>
      r.1 = true ∧ Placed G x I v ino n blk r.2 v' := by
  have hind : At fs I v.data x (12, []) (ino.ptr 12) :=
    (at_iff hx).mpr ⟨slotOk_root (by decide), rfl, h0⟩
  have hdata := h.blocks.isData hind
  have hslot : fileSlot fs n = some (12, [n - 12]) := by
    unfold fileSlot
    rw [if_neg (by omega), if_pos hlt]
  have hempty' : ref v.data ino (12, [n - 12]) = 0 := by
    unfold fileBlk at hempty
    rw [hslot] at hempty
    exact hempty
  refine Exact.seq (readBlock_data hdata) ?_
  refine Exact.seq (writeBlock_data hdata _) ?_
  refine ret ⟨rfl, ?_⟩
  have hbuf : ∀ j, j < fs.per →
      ptrAt (((v.data (ino.ptr 12)).putWord (n - 12) (UInt32.ofNat blk)).take fs.blockSize) j =
        if j = n - 12 then blk else ptrAt (v.data (ino.ptr 12)) j := fun j hj => by
    unfold ptrAt
    have hfit : 4 * j + 4 ≤ fs.blockSize := by
      unfold Fs.per at hj
      omega
    rw [word_take hfit, word_putWord]
    split
    · exact UInt32.toNat_ofNat_of_lt' hblk.lt
    · rfl
  have href := ref_putWord h.blocks hx h0 hbuf
  obtain ⟨hworld, hleaked⟩ := h.attach hx hblk (fileSlot_ok hslot) hempty'
    (ino.addBlock fs) (BlocksKept.setData v (ino.ptr 12) _) href fun y σ c hy hc => by
      refine update_of_ne ?_ _ _
      rintro rfl
      exact hy (h.blocks.inj hc hind).1
  exact ⟨hworld, hleaked, InodesKept.setData _ _ _, rfl, ⟨_, _, rfl⟩, fileBlk_of_ref hslot href,
    fun c _ hc => update_of_ne hc _ _⟩

/-- **`set_block_of`** on an unmapped logical block. -/
theorem setBlockOf_spec (h : World G I v) (hx : I x = some ino) {blk : Nat}
    (hblk : Leaked G I v blk) (hempty : fileBlk fs v.data ino n = 0) :
    G.Spec (setBlockOf fs ino n blk) v fun r v' =>
      (r.1 = false ∧ r.2 = ino ∧ v' = v ∧ CannotMap fs v ino n) ∨
      (r.1 = true ∧ ¬ CannotMap fs v ino n ∧ Placed G x I v ino n blk r.2 v') := by
  unfold setBlockOf
  by_cases h12 : n < 12
  · -- a direct pointer
    simp only [if_pos h12]
    have hslot : fileSlot fs n = some (n, []) := by
      unfold fileSlot
      rw [if_pos h12]
    have hzero : ino.ptr n = 0 := by
      unfold fileBlk at hempty
      rw [hslot] at hempty
      exact hempty
    have href := ref_setPtr fs v.data (show n < 15 by omega) hblk.lt hzero
      fun i is hσ => by
        have : (i :: is).length ≤ n - 11 := hσ.depth
        rw [length_cons] at this
        omega
    obtain ⟨hworld, hleaked⟩ := h.attach hx hblk (fileSlot_ok hslot) hzero
      ((ino.setPtr n blk).addBlock fs) (BlocksKept.refl v) href fun _ _ _ _ _ => rfl
    refine ret (.inr ⟨rfl, ?_, hworld, hleaked, InodesKept.refl v, rfl, ⟨_, _, rfl⟩,
      fileBlk_of_ref hslot href, fun _ _ _ => rfl⟩)
    rintro (hbig | ⟨hbig, _⟩) <;> omega
  simp only [if_neg h12]
  by_cases hper : fs.per ≤ n - 12
  · rw [if_pos hper]
    exact ret (.inl ⟨rfl, rfl, rfl, .inl (by omega)⟩)
  rw [if_neg hper]
  by_cases h0 : ino.ptr 12 = 0
  swap
  · rw [if_neg h0]
    refine weaken (setIndirect_spec h hx hblk (by omega) (by omega) h0 hempty)
      fun r w hr => .inr ⟨hr.1, ?_, hr.2⟩
    rintro (hbig | ⟨_, hzero, _⟩)
    · omega
    · exact h0 hzero
  -- the single-indirect block comes first
  rw [if_pos h0]
  refine seq (allocBlock_spec h.bits h.reserved) ?_
  rintro ind w (⟨rfl, rfl, hfull⟩ | ⟨hind0, hfree, rfl⟩)
  · rw [if_pos rfl]
    exact ret (.inl ⟨rfl, rfl, rfl, .inr ⟨by omega, h0, hfull⟩⟩)
  rw [if_neg hind0]
  have hworld1 := h.fresh hfree zero
  have hleak1 := h.leaked_fresh hfree zero
  have hind : Leaked G I (v.fresh fs ind zero) ind := (hleak1 ind).mpr (.inr rfl)
  have hzeroData : (v.fresh fs ind zero).data ind = zero := update_self ..
  have href := ref_setPtr fs (v.fresh fs ind zero).data
      (show 12 < 15 by decide) hind.lt h0 fun i is _ => by rw [hzeroData]; rfl
  obtain ⟨hworld2, hleak2⟩ := hworld1.attach hx hind (slotOk_root (r := 12) (by decide)) h0
    ((ino.setPtr 12 ind).addBlock fs) (BlocksKept.refl _) href fun _ _ _ _ _ => rfl
  have hnotleak : ¬ Leaked G I v ind := fun hl => by
    have := hl.2.2.1
    rw [hfree.2] at this
    cases this
  -- its place is no logical block, so these are as they were
  have hsame : ∀ i, fileBlk fs (v.fresh fs ind zero).data ((ino.setPtr 12 ind).addBlock fs) i =
      fileBlk fs v.data ino i := fun i => by
    rw [← h.fileBlk_fresh hfree zero hx]
    unfold fileBlk
    cases hi : fileSlot fs i with
    | none => rfl
    | some σ =>
      have hne : σ ≠ (12, []) := by
        rintro rfl
        have := (fileSlot_leaf hi).2
        simp at this
      exact (href σ (fileSlot_ok hi)).trans (if_neg hne)
  have hx2 : update I x (some ((ino.setPtr 12 ind).addBlock fs)) x =
      some ((ino.setPtr 12 ind).addBlock fs) := update_self ..
  have hptr : ((ino.setPtr 12 ind).addBlock fs).ptr 12 = ind := by
    show (ino.setPtr 12 ind).ptr 12 = ind
    rw [Inode.ptr_setPtr (by decide) hind.lt, if_pos rfl]
  have hleak2' : ∀ c, Leaked G (update I x (some ((ino.setPtr 12 ind).addBlock fs)))
      (v.fresh fs ind zero) c ↔ Leaked G I v c := fun c => by
    rw [hleak2, hleak1]
    constructor
    · rintro ⟨hc | hc, hne⟩
      · exact hc
      · exact absurd hc hne
    · exact fun hc => ⟨.inl hc, fun heq => hnotleak (heq ▸ hc)⟩
  refine weaken (setIndirect_spec hworld2 hx2 ((hleak2' blk).mpr hblk) (by omega) (by omega)
    (by rw [hptr]; exact hind0) ((hsame n).trans hempty)) fun r w hr => .inr ⟨hr.1, ?_, ?_⟩
  · rintro (hbig | ⟨_, _, hfull⟩)
    · omega
    · exact hfull ind hfree
  · obtain ⟨_, hp⟩ := hr
    have hworld := hp.world
    have hleaked := hp.leaked
    rw [update_idem] at hworld hleaked
    refine ⟨hworld, fun c => ?_, (InodesKept.fresh fs v ind zero).trans hp.kept, hp.inode,
      Inode.SameShape.trans ⟨_, _, rfl⟩ hp.shape, fun i => ?_, fun c hc _ => ?_⟩
    · rw [hleaked, hleak2']
    · rw [hp.blk, hsame]
    · have hne : c ≠ ind := by
        rintro rfl
        rw [hfree.2] at hc
        cases hc
      have hused : (v.fresh fs ind zero).bused c = true :=
        (update_of_ne hne ..).trans hc
      rw [hp.data c hused (by rw [hptr]; exact hne)]
      exact update_of_ne hne ..

/-! ## Filling a file -/

/-- Inode `x` has grown: what was mapped still is and holds what it held, and the blocks of the
other inodes are left alone. -/
structure Grown (G : Layout fs) (x : Nat) (I : Nat → Option Inode) (v : View) (ino ino' : Inode)
    (v' : View) : Prop where
  world : World G (update I x (some ino')) v'
  leaked : ∀ c, Leaked G (update I x (some ino')) v' c → Leaked G I v c
  kept : InodesKept v v'
  inode : v'.inode = v.inode
  shape : ino.SameShape ino'
  frame : ∀ y σ c, y ≠ x → At fs I v.data y σ c → v'.data c = v.data c
  keep : ∀ i, fileBlk fs v.data ino i ≠ 0 →
    fileBlk fs v'.data ino' i = fileBlk fs v.data ino i ∧
      v'.data (fileBlk fs v.data ino i) = v.data (fileBlk fs v.data ino i)

theorem update_self_of_eq (hx : I x = some ino) : update I x (some ino) = I := by
  rw [← hx, update_eq_self]

theorem at_fileBlk (hx : I x = some ino) {data : Nat → Buf} {i : Nat}
    (h0 : fileBlk fs data ino i ≠ 0) :
    ∃ σ, fileSlot fs i = some σ ∧ At fs I data x σ (fileBlk fs data ino i) := by
  unfold fileBlk at h0 ⊢
  cases hi : fileSlot fs i with
  | none => simp [hi] at h0
  | some σ =>
    simp only [hi] at h0 ⊢
    exact ⟨σ, rfl, (at_iff hx).mpr ⟨fileSlot_ok hi, rfl, h0⟩⟩

namespace Grown

theorem refl (h : World G I v) (hx : I x = some ino) : Grown G x I v ino ino v := by
  have hI := update_self_of_eq hx
  exact ⟨hI.symm ▸ h, fun c hc => hI ▸ hc, InodesKept.refl v, rfl, Inode.SameShape.refl ino,
    fun _ _ _ _ _ => rfl, fun _ _ => ⟨rfl, rfl⟩⟩

theorem trans {ino₁ ino₂ : Inode} {v₁ v₂ : View} (h : Grown G x I v ino ino₁ v₁)
    (h' : Grown G x (update I x (some ino₁)) v₁ ino₁ ino₂ v₂) :
    Grown G x I v ino ino₂ v₂ := by
  have hworld := h'.world
  have hleaked := h'.leaked
  rw [update_idem] at hworld hleaked
  refine ⟨hworld, fun c hc => h.leaked c (hleaked c hc), h.kept.trans h'.kept,
    h'.inode.trans h.inode, h.shape.trans h'.shape, fun y σ c hy hc => ?_, fun i hi => ?_⟩
  · have hc' : At fs (update I x (some ino₁)) v₁.data y σ c :=
      (at_congr (update_of_ne hy ..) (fun τ d hd _ => h.frame y τ d hy hd) σ c).mpr hc
    rw [h'.frame y σ c hy hc', h.frame y σ c hy hc]
  · obtain ⟨h1, h2⟩ := h.keep i hi
    obtain ⟨h3, h4⟩ := h'.keep i (by rw [h1]; exact hi)
    rw [h1] at h3 h4
    exact ⟨h3, h4.trans h2⟩

theorem of_placed (h : World G I v) (hx : I x = some ino) {blk : Nat} (hfree : v.Free fs blk)
    (buf : Buf) (hn : fileBlk fs v.data ino n = 0)
    (hp : Placed G x I (v.fresh fs blk buf) ino n blk ino' v') : Grown G x I v ino ino' v' := by
  have hown := h.not_owned hfree
  -- a block in use before is stored to only if it is the single-indirect block
  have hold : ∀ y σ c, At fs I v.data y σ c → c ≠ ino.ptr 12 → v'.data c = v.data c :=
    fun y σ c hc hne => by
      have hcb : c ≠ blk := fun heq => hown ⟨y, σ, heq ▸ hc⟩
      have hused : (v.fresh fs blk buf).bused c = true :=
        (update_of_ne hcb ..).trans (h.blocks.used hc)
      rw [hp.data c hused hne]
      exact update_of_ne hcb ..
  have hptr : ∀ {y σ c}, At fs I v.data y σ c → c = ino.ptr 12 → y = x ∧ σ = (12, []) :=
    fun {y σ c} hc heq => by
      obtain ⟨_, _, _, _, hc0⟩ := id hc
      exact h.blocks.inj hc ((at_iff hx).mpr ⟨slotOk_root (by decide), heq.symm, hc0⟩)
  refine ⟨hp.world, fun c hc => ?_, (InodesKept.fresh fs v blk buf).trans hp.kept, hp.inode,
    hp.shape, fun y σ c hy hc => hold y σ c hc fun heq => hy (hptr hc heq).1, fun i hi => ?_⟩
  · obtain ⟨hc, hne⟩ := (hp.leaked c).mp hc
    exact ((h.leaked_fresh hfree buf c).mp hc).resolve_right hne
  · obtain ⟨σ, hσ, hat⟩ := at_fileBlk hx hi
    refine ⟨?_, hold x σ _ hat fun heq => ?_⟩
    · rw [hp.blk, if_neg, h.fileBlk_fresh hfree buf hx]
      rintro rfl
      exact hi hn
    · obtain ⟨_, rfl⟩ := hptr hat heq
      have := (fileSlot_leaf hσ).2
      simp at this

theorem of_dropped (h : World G I v) (hx : I x = some ino) {blk : Nat} (hfree : v.Free fs blk)
    (buf : Buf) : Grown G x I v ino ino ((v.fresh fs blk buf).dropBlock fs blk) := by
  have hblk : Leaked G I (v.fresh fs blk buf) blk := (h.leaked_fresh hfree buf blk).mpr (.inr rfl)
  have hdata : ((v.fresh fs blk buf).dropBlock fs blk).data = (v.fresh fs blk buf).data := by
    rw [dropBlock_of_hasBit hblk.1]
    rfl
  have hkeep : ∀ y σ c, At fs I v.data y σ c →
      ((v.fresh fs blk buf).dropBlock fs blk).data c = v.data c := fun y σ c hc => by
    have hne : c ≠ blk := fun heq => h.not_owned hfree ⟨y, σ, heq ▸ hc⟩
    rw [hdata]
    exact update_of_ne hne ..
  refine ⟨?_, fun c hc => ?_, (InodesKept.fresh fs v blk buf).trans (InodesKept.dropBlock fs _ blk),
    ?_, Inode.SameShape.refl _, fun y σ c _ hc => hkeep y σ c hc, fun i hi => ?_⟩
  · rw [update_self_of_eq hx]
    exact (h.fresh hfree buf).drop hblk
  · rw [update_self_of_eq hx] at hc
    obtain ⟨hc, hne⟩ := (World.leaked_drop hblk c).mp hc
    exact ((h.leaked_fresh hfree buf c).mp hc).resolve_right hne
  · rw [dropBlock_of_hasBit hblk.1]
    rfl
  · obtain ⟨σ, _, hat⟩ := at_fileBlk hx hi
    refine ⟨?_, hkeep x σ _ hat⟩
    rw [hdata, h.fileBlk_fresh hfree buf hx]

end Grown

/-- What `write_file_impl` stores as logical block `i`. -/
def chunkBuf (fs : Fs) (data : List UInt8) (i : Nat) : Buf :=
  (Buf.zero.blit 0 (min (u32 (data.length - i * fs.blockSize)) fs.blockSize)
    fun k => data.getD (i * fs.blockSize + k) 0).take fs.blockSize

/-- The logical blocks from `lo` on are those of the data up to `hi`, and unmapped after. -/
def Stored (fs : Fs) (data : List UInt8) (lo hi : Nat) (ino : Inode) (v : View) : Prop :=
  ∀ i, lo ≤ i →
    if i < hi then fileBlk fs v.data ino i ≠ 0 ∧
      v.data (fileBlk fs v.data ino i) = chunkBuf fs data i
    else fileBlk fs v.data ino i = 0

theorem writeBlocks_spec (data : List UInt8) : ∀ (fuel bi : Nat) (I : Nat → Option Inode)
    (v : View) (ino : Inode), World G I v → I x = some ino →
    (∀ i, bi ≤ i → fileBlk fs v.data ino i = 0) →
      G.Spec (writeBlocks fs data fuel bi ino) v fun r v' => Grown G x I v ino r.2 v' ∧
        (r.1 = true → Stored fs data bi (bi + fuel) r.2 v')
  | 0, bi, I, v, ino, h, hx, hempty =>
    ret ⟨Grown.refl h hx, fun _ i hi => by rw [if_neg (by omega)]; exact hempty i hi⟩
  | fuel + 1, bi, I, v, ino, h, hx, hempty => by
    refine seq (allocBlock_spec h.bits h.reserved) ?_
    rintro blk w (⟨rfl, rfl, _⟩ | ⟨hne, hfree, rfl⟩)
    · rw [if_pos rfl]
      exact ret ⟨Grown.refl h hx, by simp⟩
    rw [if_neg hne]
    have hblk := (h.leaked_fresh hfree zero blk).mpr (.inr rfl)
    refine Exact.seq (writeBlock_data hblk.isData _) ?_
    -- the data is in a block that stands nowhere
    have hview : (v.allocBlock fs blk).setData blk (chunkBuf fs data bi) =
        v.fresh fs blk (chunkBuf fs data bi) := by
      unfold View.allocBlock View.fresh View.setData
      simp only [update_idem]
    change G.Spec _ ((v.allocBlock fs blk).setData blk (chunkBuf fs data bi)) _
    rw [hview]
    have hsame := h.fileBlk_fresh hfree (chunkBuf fs data bi) hx
    have hleak := (h.leaked_fresh hfree (chunkBuf fs data bi) blk).mpr (.inr rfl)
    refine seq (setBlockOf_spec (h.fresh hfree _) hx hleak
      ((hsame bi).trans (hempty bi (le_refl bi)))) ?_
    rintro ⟨ok, ino1⟩ w (⟨hok, hino, rfl, _⟩ | ⟨hok, _, hp⟩)
    · subst hok hino
      refine Exact.seq (freeBlock_exact blk) ?_
      exact ret ⟨Grown.of_dropped h hx hfree _, by simp⟩
    subst hok
    have hgrown := Grown.of_placed h hx hfree _ (hempty bi (le_refl bi)) hp
    have hnext : ∀ i, bi + 1 ≤ i → fileBlk fs w.data ino1 i = 0 := fun i hi => by
      rw [hp.blk, if_neg (by omega), hsame]
      exact hempty i (by omega)
    refine weaken (writeBlocks_spec data fuel (bi + 1) _ w ino1 hgrown.world
      (update_self ..) hnext) fun r v' hr => ⟨hgrown.trans hr.1, fun hok i hi => ?_⟩
    by_cases hib : i = bi
    · subst hib
      have hblkAt : fileBlk fs w.data ino1 i = blk := by rw [hp.blk, if_pos rfl]
      obtain ⟨hk1, hk2⟩ := hr.1.keep i (by rw [hblkAt]; exact hne)
      rw [hblkAt] at hk1 hk2
      rw [if_pos (by omega), hk1]
      refine ⟨hne, hk2.trans ?_⟩
      have hused : (v.fresh fs blk (chunkBuf fs data i)).bused blk = true :=
        update_self ..
      rw [hp.data blk hused]
      · exact update_self ..
      · -- the block stood nowhere, so it is not the single-indirect block
        intro heq
        exact h.not_owned hfree
          ⟨x, (12, []), (at_iff hx).mpr ⟨slotOk_root (by decide), heq.symm, hne⟩⟩
    · have := hr.2 hok i (by omega)
      rw [show bi + 1 + fuel = bi + (fuel + 1) by omega] at this
      exact this

/-- Inode `x` is now `ino'`, in the table too; the blocks of the other inodes are left alone and
no block is lost. -/
structure Rewritten (G : Layout fs) (x : Nat) (I : Nat → Option Inode) (v : View) (ino' : Inode)
    (v' : View) : Prop where
  world : World G (update I x (some ino')) v'
  leaked : ∀ c, Leaked G (update I x (some ino')) v' c → Leaked G I v c
  kept : InodesKept v v'
  inode : v'.inode = update v.inode x ino'
  frame : ∀ y σ c, y ≠ x → At fs I v.data y σ c → v'.data c = v.data c

theorem at_ptr (hptr : ino'.ptr = ino.ptr) (data : Nat → Buf) (y : Nat)
    (σ : PtrSlot) (c : Nat) : At fs (update I x (some ino')) data y σ c ↔
      At fs (update I x (some ino)) data y σ c := by
  by_cases hy : y = x
  · subst hy
    have href : ref data ino' σ = ref data ino σ := by
      unfold ref
      rw [hptr]
    rw [at_iff (update_self ..), at_iff (update_self ..), href]
  · unfold At
    rw [update_of_ne hy, update_of_ne hy]

theorem World.of_ptr (h : World G I v) (hx : I x = some ino)
    (hptr : ino'.ptr = ino.ptr) : World G (update I x (some ino')) v :=
  h.of_at (BlocksKept.refl v) fun {y σ c} hc =>
    update_self_of_eq hx ▸ (at_ptr hptr v.data y σ c).mp hc

theorem BlocksKept.setInode (v : View) (x : Nat) (ino : Inode) : BlocksKept v (v.setInode x ino) :=
  ⟨rfl, fun _ => rfl, rfl⟩

/-- Writing the inode of a file that has grown, with other fields changed on the way. -/
theorem Grown.write {ino₁ : Inode} (h : Grown G x I v ino ino₁ v')
    (hptr : ino'.ptr = ino₁.ptr) : Rewritten G x I v ino' (v'.setInode x ino') := by
  have hat : ∀ y σ c, At fs (update I x (some ino')) v'.data y σ c ↔
      At fs (update I x (some ino₁)) v'.data y σ c := at_ptr hptr v'.data
  refine ⟨h.world.of_at (BlocksKept.setInode v' x ino') fun hc => (hat _ _ _).mp hc, fun c hc => ?_,
    h.kept.trans (InodesKept.setInode v' x ino'), ?_, h.frame⟩
  · refine h.leaked c ⟨hc.1, hc.2.1, hc.2.2.1, hc.2.2.2.1, ?_⟩
    rintro ⟨y, σ, hown⟩
    exact hc.2.2.2.2 ⟨y, σ, (hat y σ c).mpr hown⟩
  · rw [← h.inode]
    rfl

theorem Stored.fileBytes_eq (G : Layout fs) {data : List UInt8} (hlen : data.length < 2 ^ 32)
    (hn : data.length ≤ n * fs.blockSize) (h : Stored fs data 0 n ino v) :
    fileBytes fs v.data ino data.length = data := by
  have hpos := G.blockSize_pos
  unfold fileBytes
  apply ext_getElem?
  intro i
  by_cases hi : i < data.length
  swap
  · rw [getElem?_eq_none (by simpa using hi), getElem?_eq_none (by omega)]
  have hblk : i / fs.blockSize < n := (Nat.div_lt_iff_lt_mul hpos).mpr (by omega)
  have hst := h (i / fs.blockSize) (Nat.zero_le _)
  rw [if_pos hblk] at hst
  have hdm := Nat.div_add_mod i fs.blockSize
  have hmod := Nat.mod_lt i hpos
  rw [mul_comm] at hdm
  -- the byte lies in the chunk of its block
  have hchunk : chunkBuf fs data (i / fs.blockSize) (i % fs.blockSize) = data.getD i 0 := by
    unfold chunkBuf
    rw [take_of_lt _ hmod, u32_of_lt (by omega), blit_of_mem (by omega), Nat.sub_zero, hdm]
  rw [getElem?_map, getElem?_range hi, map_some]
  unfold fileBlock
  rw [if_neg hst.1, hst.2, hchunk, getD_eq_getElem?_getD, getElem?_eq_getElem hi]
  rfl

/-- **Filling an empty file**: on success it reads back as the data. -/
theorem fillFile_spec (h : World G I v) (hx : I x = some ino) (hvalid : fs.ValidIno x)
    (hempty : ∀ i, fileBlk fs v.data ino i = 0) (data : List UInt8) :
    G.Spec (fillFile fs x ino data) v fun ok v' => ∃ ino' block blocks,
      ino' = { ino with block := block, blocks := blocks, size := UInt32.ofNat data.length } ∧
      Rewritten G x I v ino' v' ∧ (ok = true → data.length < 2 ^ 32 →
        fileBytes fs v'.data ino' data.length = data) := by
  refine seq (writeBlocks_spec data _ 0 I v ino h hx fun i _ => hempty i) ?_
  rintro ⟨ok, ino1⟩ w ⟨hgrown, hstored⟩
  refine Exact.seq (writeInode_exact hvalid _) ?_
  obtain ⟨block, blocks, rfl⟩ := hgrown.shape
  refine ret ⟨_, block, blocks, rfl, hgrown.write rfl, fun hok hlen => ?_⟩
  have hge := G.blockSize.ge
  have hle := G.blockSize_le
  have hpos := G.blockSize_pos
  have hdm := Nat.div_add_mod (data.length + fs.blockSize - 1) fs.blockSize
  have hmod := Nat.mod_lt (data.length + fs.blockSize - 1) hpos
  have hblocks : (data.length + fs.blockSize - 1) / fs.blockSize < 2 ^ 32 :=
    lt_of_le_of_lt (Nat.div_le_div_left hge (by decide)) (by omega)
  have hst := hstored hok
  rw [zero_add, Nat.mod_eq_of_lt (by omega), u32_of_lt hblocks] at hst
  refine Stored.fileBytes_eq G (v := w) hlen ?_ hst
  rw [mul_comm] at hdm
  omega

end JuampiOs.Ext2
