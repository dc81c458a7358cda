import JuampiOs.Ext2.Contents

/-!
# What removing a file frees

`remove_impl` hands the words in the block array of the removed inode to `free_all_blocks`, as
block numbers, whatever they are. In a device node or a symbolic link with its text in the inode
they are something else, and the blocks with these numbers are freed although they belong to other
files. `remove_frees_own_iff` says exactly when this does no harm.
-/

namespace JuampiOs.Ext2

open Lib List Option Spec SmallImage

variable {fs : Fs} {G : Layout fs} {st : Mount} {v v' : View} {ino : Inode} {p num : Nat}
  {path base : List UInt8}

/-! ## Bits -/

/-- The bit of block `b` is set. -/
def View.InUse (fs : Fs) (v : View) (b : Nat) : Prop := fs.HasBit b ∧ v.bused b = true

variable {b : Nat} {data : Nat → Buf} {L : List Nat}

theorem freeMany_bused (hb : fs.HasBit b) : ∀ (L : List Nat) (v : View),
    (v.freeMany fs L).bused b = true ↔ v.bused b = true ∧ b ∉ L
  | [], v => by simp [View.freeMany]
  | c :: L, v => by
    have hstep : (v.dropBlock fs c).bused b = true ↔ v.bused b = true ∧ b ≠ c := by
      by_cases hc : fs.HasBit c
      · rw [dropBlock_of_hasBit hc, View.unuseBlock_bused]
        by_cases hbc : b = c <;> simp [hbc]
      · have hbc : b ≠ c := fun heq => hc (heq ▸ hb)
        unfold View.dropBlock
        rw [if_pos (by unfold Fs.HasBit at hc; omega)]
        simp [hbc]
    show ((v.dropBlock fs c).freeMany fs L).bused b = true ↔ _
    rw [freeMany_bused hb L, hstep, mem_cons]
    tauto

theorem Abs.bused_eq {s : Vol} {w : View} (h : Abs G s v) (h' : Abs G s w)
    (hb : fs.HasBit b) : v.bused b = w.bused b := by
  obtain ⟨hlt, hno⟩ := blockNo_groupOf G hb
  have h1 := h.role (.blockBitmap (fs.groupOf b)) hb.2 _ hlt
  have h2 := h'.role (.blockBitmap (fs.groupOf b)) hb.2 _ hlt
  rw [hno] at h1 h2
  exact h1.symm.trans h2

theorem Spec.and_bits {α : Type} {q : Io α} {Q Q' : α → View → Prop} (h : G.Spec q v Q)
    (h' : G.Spec q v Q') : G.Spec q v fun a v' =>
      Q a v' ∧ ∃ w, Q' a w ∧ ∀ b, fs.HasBit b → w.bused b = v'.bused b := by
  intro s hs
  refine Prog.wp_mono (volSpec_mono _) ?_
      (Prog.wp_and (volSpec_mono _) (volSpec_conj _) (h s hs) (h' s hs))
  rintro a s' ⟨⟨v', hv', hq⟩, w, hw, hq'⟩
  exact ⟨v', hv', hq, w, hq', fun b hb => hw.bused_eq hv' hb⟩

/-! ## The blocks that are found -/

/-- Whether a block in use is among those found does not depend on the contents of blocks in
use: these are found themselves. -/
theorem freeList_inUse_congr {data' : Nat → Buf} (hdata : ∀ b, ¬ v.InUse fs b → data' b = data b)
    (h : ∃ b ∈ freeList fs data ino, v.InUse fs b) : ∃ b ∈ freeList fs data' ino, v.InUse fs b := by
  obtain ⟨b, hb, huse⟩ := h
  unfold freeList at hb ⊢
  simp only [mem_append] at hb ⊢
  rcases hb with hb | hb | hb
  · exact ⟨b, .inl hb, huse⟩
  · -- below pointer 12
    by_cases h12 : ino.ptr 12 = 0
    · rw [if_pos h12] at hb
      cases hb
    by_cases huse12 : v.InUse fs (ino.ptr 12)
    · exact ⟨ino.ptr 12, .inr (.inl (by simp [h12, indList])), huse12⟩
    · refine ⟨b, .inr (.inl ?_), huse⟩
      rw [if_neg h12] at hb ⊢
      unfold indList at hb ⊢
      rw [hdata _ huse12]
      exact hb
  · -- below pointer 13
    by_cases h13 : ino.ptr 13 = 0
    · rw [if_pos h13] at hb
      cases hb
    rw [if_neg h13] at hb
    by_cases huse13 : v.InUse fs (ino.ptr 13)
    · exact ⟨ino.ptr 13, .inr (.inr (by simp [h13])), huse13⟩
    simp only [if_neg h13, hdata _ huse13]
    rcases mem_append.mp hb with hb | hb
    · obtain ⟨c, hc, hbc⟩ := mem_flatMap.mp hb
      by_cases hc0 : c = 0
      · rw [if_pos hc0] at hbc
        cases hbc
      rw [if_neg hc0] at hbc
      have hmem : ∀ e, e ∈ indList fs data' c →
          e ∈ dblList fs data' (ptrsOf fs (data (ino.ptr 13))) := fun e he =>
        mem_flatMap.mpr ⟨c, hc, by rw [if_neg hc0]; exact he⟩
      by_cases husec : v.InUse fs c
      · exact ⟨c, .inr (.inr (mem_append_left _ (hmem c (by simp [indList])))), husec⟩
      · refine ⟨b, .inr (.inr (mem_append_left _ (hmem b ?_))), huse⟩
        unfold indList at hbc ⊢
        rw [hdata _ husec]
        exact hbc
    · exact ⟨b, .inr (.inr (mem_append_right _ hb)), huse⟩

theorem ne_zero_of_mem_freeList (h : b ∈ freeList fs data ino) : b ≠ 0 := by
  obtain ⟨σ, _, hat⟩ := (mem_freeList (I := fun _ => some ino) (x := 0) rfl).mp h
  exact ((at_iff rfl).mp hat).2.2

theorem Reserved.inUse (h : Reserved G v) (hb : ¬ G.IsData b) (h0 : b ≠ 0) : v.InUse fs b := by
  have hsys : G.sys b := by
    by_contra hs
    exact hb (Layout.isData_of_not_sys hs)
  have hfdb : fs.firstDataBlock ≤ 1 := by
    rw [G.firstDataBlock]
    have := G.blockSize.ge
    exact Nat.div_le_of_le_mul (by omega)
  have hbit : fs.HasBit b := hasBit_of_lt G (by omega) (G.sys_lt b hsys)
  exact ⟨hbit, h.used b hbit (.inl hsys)⟩

theorem Follows.inUse_iff (hres : Reserved G v) (h : Follows G L (freeList fs data ino)) :
    (∃ b ∈ L, v.InUse fs b) ↔ ∃ b ∈ freeList fs data ino, v.InUse fs b := by
  rcases h with rfl | ⟨b, hL, hM, hb⟩
  · exact Iff.rfl
  · have huse := hres.inUse hb (ne_zero_of_mem_freeList hM)
    exact ⟨fun _ => ⟨b, hM, huse⟩, fun _ => ⟨b, hL, huse⟩⟩

/-! ## The bits after a removal -/

/-- What `remove_impl` does to the bits when the last name of a file goes: it frees what it finds
by the pointers of the inode, in the data as it is once the name is out of directory `p`. -/
structure LastLink (G : Layout fs) (v : View) (p num : Nat) (L : List Nat) : Prop where
  last : (v.inode num).dropLink.linksCount = 0
  found : ∃ data : Nat → Buf, (∀ b, (∀ σ, ¬ At fs (logical fs v) v.data p σ b) → data b = v.data b) ∧
    Follows G L (freeList fs data (v.inode num))

theorem dirRemove_bits (h : Core G v) (hdir : v.liveDir fs p = true) (base : List UInt8) :
    G.Spec (dirRemove fs (v.inode p) base) v fun _ v' => v'.bused = v.bused ∧
      ∀ b, (∀ σ, ¬ At fs (logical fs v) v.data p σ b) → v'.data b = v.data b := by
  have hm := h.world.blocks.mapped (logical_of_liveDir hdir)
  refine weaken (editedFirst_spec hm (fun _ => rfl) (fun _ _ => rfl) _ 0) ?_
  rintro done w (⟨_, rfl, _⟩ | ⟨_, i, b, _, h0, _, _, rfl⟩)
  · exact ⟨rfl, fun _ _ => rfl⟩
  refine ⟨rfl, fun c hc => ?_⟩
  obtain ⟨σ, _, hat⟩ := at_fileBlk (logical_of_liveDir hdir) h0
  have hne : c ≠ fileBlk fs v.data (v.inode p) i := fun heq => hc σ (heq ▸ hat)
  show Function.update v.data _ _ c = v.data c
  rw [Function.update_of_ne hne]

/-- The blocks `L` are free, and no other bit has changed. -/
def BitsCleared (fs : Fs) (v : View) (L : List Nat) (v' : View) : Prop :=
  ∀ b, fs.HasBit b → (v'.bused b = true ↔ v.bused b = true ∧ b ∉ L)

theorem removeImpl_bits (h : Core G v) (ht : v.target fs path = some (p, base))
    (hn : (v.tree fs).step p base = some num) (hfile : (v.inode num).isDir = false) :
    G.Spec (removeImpl fs path) v fun ok v' => ∃ L, BitsCleared fs v L v' ∧
      ((L = [] ∧ (ok = false ∨ (v.inode num).dropLink.linksCount ≠ 0)) ∨
        LastLink G v p num L) := by
  have hr := h.readable
  have hdir := (hr.target ht).dir
  have hlive := hr.live_step hn
  have hvalid := (live_iff.mp hlive).1
  have hsame : ∀ {w : View}, w.bused = v.bused → BitsCleared fs v [] w := fun hw b _ => by
    simp [hw]
  refine Exact.seq (hr.resolveParent_exact path) ?_
  rw [ht]
  refine Exact.seq (hr.lookup (liveDir_iff.mp hdir).1 base) ?_
  rw [hn]
  simp only [getD_some]
  rw [if_neg hvalid.ne_zero]
  refine Exact.seq (readInode_exact hvalid) ?_
  simp only [hfile, Bool.false_eq_true, if_false, ne_eq]
  refine Exact.seq (Exact.ret 0) ?_
  refine seq (dirRemove_bits h hdir base) ?_
  rintro done v1 ⟨hbits1, hdata1⟩
  cases done with
  | false => exact ret ⟨[], hsame hbits1, .inl ⟨rfl, .inl rfl⟩⟩
  | true =>
    by_cases hlast : (v.inode num).dropLink.linksCount = 0
    · rw [if_pos hlast]
      have hrelease : G.Spec (releaseInode fs num (v.inode num).dropLink false) v1 fun _ w => ∃ L,
          Follows G L (freeList fs v1.data (v.inode num)) ∧ BitsCleared fs v L w := by
        refine seq (freeAllBlocks_any _ v1) ?_
        rintro _ w ⟨_, L, hL, rfl⟩
        refine Exact.seq (writeInode_exact hvalid Inode.zero) ?_
        refine weaken (freeInode_exact hvalid false) ?_
        rintro _ w ⟨_, rfl⟩
        refine ⟨L, hL, fun b hb => ?_⟩
        show (v1.freeMany fs L).bused b = true ↔ _
        rw [freeMany_bused hb, hbits1]
      refine seq hrelease ?_
      rintro _ w ⟨L, hL, hbits⟩
      exact ret ⟨L, hbits, .inr ⟨hlast, v1.data, hdata1, hL⟩⟩
    · rw [if_neg hlast]
      refine Exact.seq (writeInode_exact hvalid _) (ret ⟨[], hsame ?_, .inl ⟨rfl, .inr hlast⟩⟩)
      exact hbits1

/-! ## When only own blocks are freed -/

/-- Only blocks of inode `num` were freed, and every other inode still has its blocks. -/
structure OnlyOwnFreed (fs : Fs) (v : View) (num : Nat) (v' : View) : Prop where
  freed : ∀ b, fs.HasBit b → v.bused b = true → v'.bused b = false →
    ∃ σ, At fs (logical fs v) v.data num σ b
  others : ∀ y σ b, y ≠ num → At fs (logical fs v) v.data y σ b → v'.bused b = true

/-- The removal frees no block of another file: the path leads nowhere, the inode has another
name, its pointers are block numbers, or what they find when taken for block numbers is not in
use. -/
def FreesOnlyOwn (fs : Fs) (v : View) (path : List UInt8) (num : Nat) : Prop :=
  v.target fs path = none ∨ (v.inode num).dropLink.linksCount ≠ 0 ∨
    (v.inode num).holdsBlocks fs = true ∨
    ∀ b ∈ freeList fs v.data (v.inode num), ¬ v.InUse fs b

section

variable (h : Core G v)
include h

theorem Core.onlyOwnFreed (hbits : BitsCleared fs v L v')
    (hL : ∀ b ∈ L, v.InUse fs b → ∃ σ, At fs (logical fs v) v.data num σ b) :
    OnlyOwnFreed fs v num v' := by
  have hown : ∀ b, fs.HasBit b → v.bused b = true → v'.bused b = false →
      ∃ σ, At fs (logical fs v) v.data num σ b := fun b hb hused hfree => by
    refine hL b ?_ ⟨hb, hused⟩
    by_contra hmem
    rw [(hbits b hb).mpr ⟨hused, hmem⟩] at hfree
    cases hfree
  refine ⟨hown, fun y σ b hy hat => ?_⟩
  by_contra hfree
  obtain ⟨τ, hτ⟩ := hown b (h.world.blocks.hasBit hat) (h.world.blocks.used hat)
    (Bool.eq_false_iff.mpr hfree)
  exact hy (h.world.blocks.inj hat hτ).1

theorem LastLink.own (hl : LastLink G v p num L) (hne : p ≠ num)
    (hlive : v.live fs num = true) (hblocks : (v.inode num).holdsBlocks fs = true)
    (hb : b ∈ L) : ∃ σ, At fs (logical fs v) v.data num σ b := by
  obtain ⟨data, hdata, hL⟩ := hl.found
  have hI := logical_of_live hlive hblocks
  have hat : ∀ σ c, At fs (logical fs v) data num σ c ↔ At fs (logical fs v) v.data num σ c :=
    fun σ c => at_congr rfl (fun τ e he _ => hdata e fun ρ hρ =>
      hne (h.world.blocks.inj hρ he).1) σ c
  rcases hL with rfl | ⟨c, _, hc, hnot⟩
  · obtain ⟨σ, _, hσ⟩ := (mem_freeList hI).mp hb
    exact ⟨σ, (hat σ b).mp hσ⟩
  · obtain ⟨σ, _, hσ⟩ := (mem_freeList hI).mp hc
    exact absurd (h.world.blocks.isData ((hat σ c).mp hσ)) hnot

/-- What is found by pointers that are none is in use or not whatever the name did. -/
theorem LastLink.inUse_iff (hl : LastLink G v p num L) :
    (∃ b ∈ L, v.InUse fs b) ↔ ∃ b ∈ freeList fs v.data (v.inode num), v.InUse fs b := by
  obtain ⟨data, hdata, hL⟩ := hl.found
  have hsame : ∀ b, ¬ v.InUse fs b → data b = v.data b := fun b hb =>
    hdata b fun σ hat => hb ⟨h.world.blocks.hasBit hat, h.world.blocks.used hat⟩
  rw [hL.inUse_iff h.world.reserved]
  exact ⟨freeList_inUse_congr fun b hb => (hsame b hb).symm, freeList_inUse_congr hsame⟩

theorem Core.onlyOwnFreed_iff {ok : Bool}
    (ht : v.target fs path = some (p, base)) (hn : (v.tree fs).step p base = some num)
    (hfile : (v.inode num).isDir = false) (hok : ok = true) (hbits : BitsCleared fs v L v')
    (hL : (L = [] ∧ (ok = false ∨ (v.inode num).dropLink.linksCount ≠ 0)) ∨
      LastLink G v p num L) :
    OnlyOwnFreed fs v num v' ↔ FreesOnlyOwn fs v path num := by
  have hlive := h.readable.live_step hn
  have hne : p ≠ num := by
    rintro rfl
    have := (liveDir_iff.mp (h.readable.target ht).dir).2
    rw [hfile] at this
    cases this
  rcases hL with ⟨rfl, hlinks⟩ | hl
  · rw [hok] at hlinks
    refine iff_of_true (h.onlyOwnFreed hbits (by simp)) (.inr (.inl ?_))
    exact hlinks.resolve_left (by decide)
  by_cases hblocks : (v.inode num).holdsBlocks fs = true
  · exact iff_of_true (h.onlyOwnFreed hbits fun b hb _ => hl.own h hne hlive hblocks hb)
      (.inr (.inr (.inl hblocks)))
  have hnone : ∀ σ b, ¬ At fs (logical fs v) v.data num σ b := by
    rintro σ b ⟨ino, hino, _⟩
    simp [logical, hblocks] at hino
  constructor
  · intro hfreed
    refine .inr (.inr (.inr fun b hb huse => ?_))
    obtain ⟨c, hc, hcuse⟩ := (hl.inUse_iff h).mpr ⟨b, hb, huse⟩
    have hclear : v'.bused c = false := by
      rw [Bool.eq_false_iff]
      exact fun hset => ((hbits c hcuse.1).mp hset).2 hc
    obtain ⟨σ, hσ⟩ := hfreed.freed c hcuse.1 hcuse.2 hclear
    exact hnone σ c hσ
  · rintro (hcon | hcon | hcon | hharm)
    · rw [ht] at hcon
      cases hcon
    · exact absurd hl.last hcon
    · exact absurd hcon hblocks
    · refine h.onlyOwnFreed hbits fun b hb huse => ?_
      obtain ⟨c, hc, hcuse⟩ := (hl.inUse_iff h).mp ⟨b, hb, huse⟩
      exact absurd hcuse (hharm c hc)

end

/-- **Removing a file frees blocks of that file alone, and the blocks of every other file stay in
use, exactly when `FreesOnlyOwn`.** Either way every other path reads as before. -/
theorem remove_frees_own_iff (hs : Shows G st v) (hv : Core G v) (path : List UInt8) (num : Nat)
    (hnum : resolved st path = some num) (hfile : (v.inode num).isDir = false) :
    ∃ v', Shows G (ext2Remove st path).2 v' ∧
      (OnlyOwnFreed fs v num v' ↔ FreesOnlyOwn fs v path num) ∧
      ∀ q, ¬ v.Through fs path q →
        (ext2ReadPath (ext2Remove st path).2 q).1 = (ext2ReadPath st q).1 := by
  have hr := hv.readable
  rw [hs.resolved hr] at hnum
  have hdot : ¬ RemovesDot fs v path := by
    rintro ⟨p, base, x, ht, hn, _, hx, _⟩
    rw [(hr.target ht).find, hn] at hnum
    obtain rfl := some.inj hnum
    rw [(liveDir_iff.mp hx).2] at hfile
    cases hfile
  unfold ext2Remove
  rw [hs.fs_eq]
  cases ht : v.target fs path with
  | none =>
    obtain ⟨v', hs', _, hout⟩ := hs.mutate (removeImpl_spec hv path hdot)
    have hv' : v' = v := by
      cases hout with
      | refused _ hv' _ => exact hv'
      | rmdir _ ht' | unlink _ ht' =>
        rw [ht] at ht'
        cases ht'
    subst hv'
    refine ⟨v', hs', iff_of_true (hv.onlyOwnFreed (L := []) (fun b _ => by simp) (by simp))
      (.inl ht), fun q _ => ?_⟩
    rw [(hs.readPath hr q).1, (hs'.readPath hr q).1]
  | some pb =>
    obtain ⟨p, base⟩ := pb
    have hn : (v.tree fs).step p base = some num := by
      rw [← (hr.target ht).find]
      exact hnum
    obtain ⟨v', hs', _, hout, w, ⟨L, hbits, hL⟩, hsame⟩ :=
      hs.mutate (and_bits (removeImpl_spec hv path hdot) (removeImpl_bits hv ht hn hfile))
    have hok : (st.mutate (removeImpl fs path)).1 = true := by
      cases hout with
      | refused _ _ why =>
        cases why with
        | path hnone =>
          rw [ht] at hnone
          cases hnone
        | missing ht' hn' =>
          obtain ⟨rfl, rfl⟩ := Prod.mk.inj (some.inj (ht.symm.trans ht'))
          rw [hn] at hn'
          cases hn'
        | nonempty ht' hn' hdir _ =>
          obtain ⟨rfl, rfl⟩ := Prod.mk.inj (some.inj (ht.symm.trans ht'))
          obtain rfl := some.inj (hn.symm.trans hn')
          rw [(liveDir_iff.mp hdir).2] at hfile
          cases hfile
      | rmdir hok | unlink hok => exact hok
    have hbits' : BitsCleared fs v L v' := fun b hb => by
      rw [← hsame b hb]
      exact hbits b hb
    refine ⟨v', hs', hv.onlyOwnFreed_iff ht hn hfile hok hbits' hL, fun q hq => ?_⟩
    have hr' := hout.readable hv
    rw [hok] at hout
    obtain ⟨_, _, _, _, _, _, _, hfind, hkeep, _⟩ := hout.gone hv
    exact (hs.same hr hs' hr' (hfind q hq) fun x hx => (hkeep q x hq hx).1).1

/-! ## A device node -/

/-- A volume with the device node "/null" (major 1, minor 3) and a file "/f" in block 259, which
is 1 * 256 + 3. -/
def deviceNode : SmallImage where
  blocksCount := 264
  blocksPerGroup := 264
  inodes := [(2, inode (S_IFDIR ||| 0o755) 2 1024 7 1),
    (11, { inode (S_IFCHR ||| 0o666) 1 0 0 0 with
      block := fun i => if i.val = 0 then 0x0103 else 0 }),
    (12, inode (S_IFREG ||| 0o644) 1 1 259 1)]
  blocks := [(7, fourRecords
      [([46], 2), ([46, 46], 2), ([110, 117, 108, 108], 11), ([102], 12)]),
    (259, Buf.zero.put8 0 65)]

theorem checked_deviceNode :
    Checked (deviceNode.dev fun _ => none) places sys 1 :=
  ⟨by decide +kernel, by decide +kernel⟩

/-- The file "/f" is removed. -/
theorem remove_frees_own_iff_deviceNode :
    ∃ v', Shows checked_deviceNode.toLayout (ext2Remove deviceNode.mount [47, 102]).2 v' ∧
      (OnlyOwnFreed deviceNode.fs deviceNode.view 12 v' ↔
        FreesOnlyOwn deviceNode.fs deviceNode.view [47, 102] 12) := by
  obtain ⟨v', hs', hiff, _⟩ := remove_frees_own_iff (shows checked_deviceNode)
    checked_deviceNode.consistent.toCore [47, 102] 12 (by decide +kernel) (by decide +kernel)
  exact ⟨v', hs', hiff⟩

/-- Removing the device node frees block 259, which "/f" still refers to. -/
theorem remove_device_frees_file_block :
    Consistent checked_deviceNode.toLayout deviceNode.view ∧
      Shows checked_deviceNode.toLayout deviceNode.mount deviceNode.view ∧
      (ext2Remove deviceNode.mount [47, 110, 117, 108, 108]).1 = true ∧
      (deviceNode.view.inode 12).ptr 0 = 259 ∧ deviceNode.view.bused 259 = true ∧
      (diskView (ext2Remove deviceNode.mount [47, 110, 117, 108, 108]).2.dev
        places).bused 259 = false ∧
      ((diskView (ext2Remove deviceNode.mount [47, 110, 117, 108, 108]).2.dev
        places).inode 12).ptr 0 = 259 :=
  ⟨checked_deviceNode.consistent, shows checked_deviceNode, by decide +kernel,
    by decide +kernel, by decide +kernel, by decide +kernel, by decide +kernel⟩

end JuampiOs.Ext2
