import JuampiOs.Ext2.Contents

/-!
# Blocks that are lost

`dir_add` takes a block before it knows that the directory can hold it, and does not give it back
when it cannot. A call that fails therefore loses a block exactly when its directory is full and
cannot grow although there is a block to grow by (`failed_call_leaks_iff`).
-/

namespace JuampiOs.Ext2

open Lib SmallImage

variable {fs : Fs} {G : Layout fs} {st : Mount} {v v' : View} {path data : List UInt8}

/-! ## Counting free blocks -/

namespace BlockBits

theorem free_useBlock {b c : Nat} : (v.useBlock fs b).Free fs c ↔ v.Free fs c ∧ c ≠ b := by
  unfold View.Free
  by_cases hc : c = b
  · subst hc
    simp
  · simp [hc]

variable (G) (h : BlockBits fs v)
include G h

theorem freeBlocks_eq_zero : v.counts.freeBlocks.toNat = 0 ↔ ∀ b, ¬ v.Free fs b := by
  rw [h.total, Finset.sum_eq_zero_iff]
  constructor
  · rintro hzero b ⟨hb, hfree⟩
    obtain ⟨hlt, hno⟩ := blockNo_groupOf G hb
    have := count_eq_zero.mp (hzero _ (Finset.mem_range.mpr hb.2)) _ hlt
    rw [hno, hfree] at this
    cases this
  · intro hnone g hg
    refine count_eq_zero.mpr fun i hi => ?_
    by_contra hclear
    refine hnone (fs.blockNo g i) ⟨hasBit_blockNo (Finset.mem_range.mp hg) hi, ?_⟩
    simpa using hclear

theorem freeBlocks_useBlock {b : Nat} (hb : v.Free fs b) :
    v.counts.freeBlocks.toNat = (v.useBlock fs b).counts.freeBlocks.toNat + 1 := by
  obtain ⟨hself, hother⟩ := freeIn_step G hb.1 hb.2 (View.useBlock_bused fs v b)
  rw [h.total, (h.useBlock G hb.1 hb.2).total,
    sum_succ_at (f := v.freeIn fs) hb.1.2 hself fun g _ hg => hother g hg]

theorem freeBlocks_le_one :
    v.counts.freeBlocks.toNat ≤ 1 ↔ ∀ b c, v.Free fs b → v.Free fs c → b = c := by
  constructor
  · intro hle b c hb hc
    by_contra hne
    have hstep := h.freeBlocks_useBlock G hb
    have hzero := ((h.useBlock G hb.1 hb.2).freeBlocks_eq_zero G).mp (by omega)
    exact hzero c (free_useBlock.mpr ⟨hc, Ne.symm hne⟩)
  · intro huniq
    by_contra hgt
    have hsome : ∃ b, v.Free fs b := by
      by_contra hnone
      have := (h.freeBlocks_eq_zero G).mpr (not_exists.mp hnone)
      omega
    obtain ⟨b, hb⟩ := hsome
    have hstep := h.freeBlocks_useBlock G hb
    have hne : (v.useBlock fs b).counts.freeBlocks.toNat ≠ 0 := by omega
    rw [ne_eq, (h.useBlock G hb.1 hb.2).freeBlocks_eq_zero G] at hne
    obtain ⟨c, hc⟩ := not_forall_not.mp hne
    obtain ⟨hc, hcb⟩ := free_useBlock.mp hc
    exact hcb (huniq c b hc hb)

theorem growFails_iff (dir : Inode) (n : Nat) : GrowFails fs v dir n ↔
      12 + fs.per ≤ n ∨ (12 ≤ n ∧ dir.ptr 12 = 0 ∧ v.counts.freeBlocks.toNat ≤ 1) := by
  unfold GrowFails
  rw [h.freeBlocks_le_one G]

end BlockBits

/-! ## When a block is lost -/

/-- The directory a new entry goes to is full, and cannot grow although there is a block to grow
by: it has reached its largest size, or it needs a first indirect block and there is none. The
call has taken `k` blocks when it asks for that one. -/
def GrowsInVain (fs : Fs) (v : View) (path : List UInt8) (k : Nat) : Prop :=
  ∃ p base, v.target fs path = some (p, base) ∧ (v.tree fs).step p base = none ∧
    (∃ x, fs.ValidIno x ∧ v.iused x = false) ∧ DirFull fs v.data (v.inode p) base ∧
    ((k ≤ v.counts.freeBlocks.toNat ∧ 12 + fs.per ≤ dirBlocks fs (v.inode p)) ∨
      (v.counts.freeBlocks.toNat = k ∧ 12 ≤ dirBlocks fs (v.inode p) ∧ (v.inode p).ptr 12 = 0))

section GrowsInVain

variable {k p : Nat} {base : List UInt8} (h : GrowsInVain fs v path k)
include h

theorem GrowsInVain.target_ne_none : v.target fs path ≠ none := by
  obtain ⟨p, base, ht, -⟩ := h
  rw [ht]
  rintro ⟨⟩

theorem GrowsInVain.inode : ∃ x, fs.ValidIno x ∧ v.iused x = false := by
  obtain ⟨-, -, -, -, hino, -⟩ := h
  exact hino

theorem GrowsInVain.le : k ≤ v.counts.freeBlocks.toNat := by
  obtain ⟨-, -, -, -, -, -, ⟨hle, -⟩ | ⟨heq, -⟩⟩ := h
  · exact hle
  · exact heq.ge

theorem GrowsInVain.step_eq_none (ht : v.target fs path = some (p, base)) :
    (v.tree fs).step p base = none := by
  obtain ⟨p', base', ht', hn, -⟩ := h
  cases ht.symm.trans ht'
  exact hn

end GrowsInVain

/-- A directory with room for an entry does not grow in vain. -/
theorem GrowsInVain.noRoom {p : Nat} {base : List UInt8} (G : Layout fs) (hb : BlockBits fs v)
    (h : GrowsInVain fs v path 1) (ht : v.target fs path = some (p, base)) :
    NoRoom fs v (v.inode p) base := by
  obtain ⟨p', base', ht', -, -, hfull, hwhy⟩ := h
  cases ht.symm.trans ht'
  refine ⟨hfull, .inr ((hb.growFails_iff G _ _).mpr ?_)⟩
  rcases hwhy with ⟨_, h1⟩ | ⟨h1, h2, h3⟩
  · exact .inl h1
  · exact .inr ⟨h2, h3, h1.le⟩

/-- Every block in use is the file system's own or some inode's, and every inode in use has a
name or is reserved. -/
structure NoLeaks (G : Layout fs) (v : View) : Prop where
  blocks : ∀ b, fs.HasBit b → b < fs.blocksCount → v.bused b = true →
    G.sys b ∨ Owned fs (logical fs v) v.data b
  inodes : ∀ x, v.live fs x = true → x < fs.firstIno ∨ ∃ d name, (name, x) ∈ (v.tree fs).ents d

theorem Core.noLeaks_iff (h : Core G v) : NoLeaks G v ↔ ∀ b, ¬ Leaked G (logical fs v) v b := by
  constructor
  · rintro hno b ⟨hb, hlt, hused, hsys, hown⟩
    rcases hno.blocks b hb hlt hused with hs | ho
    · exact hsys hs
    · exact hown ho
  · intro hno
    refine ⟨fun b hb hlt hused => ?_, fun x hx => ?_⟩
    · by_contra hcon
      obtain ⟨hsys, hown⟩ := not_or.mp hcon
      exact hno b ⟨hb, hlt, hused, hsys, hown⟩
    · by_cases hlt : x < fs.firstIno
      · exact .inl hlt
      · right
        cases h.reach x hx (not_lt.mp hlt) with
        | root => exact ⟨_, _, h.tree.dot _ h.tree.root⟩
        | entry hd _ hmem => exact ⟨_, _, hmem⟩

section Outcomes

variable (hv : Consistent G v)
include hv

theorem Consistent.noLeaks_undone {num : Nat} {lost : Nat → Prop} (hu : Undone G v num lost v') :
    NoLeaks G v' ↔ ∀ b, ¬ lost b := by
  rw [(hu.aside.core hv.toCore).noLeaks_iff]
  refine forall_congr' fun b => ?_
  rw [hu.leaked b]
  have := hv.noLeak b
  tauto

/-- The entry is not made: `w` is what the call has left of `v` when it asks for a block to grow
by, after it has taken `k` others. -/
theorem Consistent.noLeaks_full {w : View} {k p num : Nat} {base : List UInt8} {lost : Nat → Prop}
    (hw : BlockBits fs w) (hk : v.counts.freeBlocks.toNat = w.counts.freeBlocks.toNat + k)
    (ht : v.target fs path = some (p, base)) (hn : (v.tree fs).step p base = none)
    (hfull : DirFull fs v.data (v.inode p) base)
    (hlost : ((∀ b, ¬ lost b) ∧ ∀ b, ¬ w.Free fs b) ∨ ((∃ b, lost b) ∧ (∃ b, w.Free fs b) ∧
      GrowFails fs w (v.inode p) (dirBlocks fs (v.inode p))))
    (hu : Undone G v num lost v') : NoLeaks G v' ↔ ¬ GrowsInVain fs v path (k + 1) := by
  rw [hv.noLeaks_undone hu]
  rcases hlost with ⟨hnone, hnofree⟩ | ⟨⟨b, hb⟩, hfree, hfails⟩
  · refine iff_of_true hnone fun hvain => ?_
    have := hvain.le
    have := (hw.freeBlocks_eq_zero G).mpr hnofree
    omega
  refine iff_of_false (fun hall => hall b hb) (not_not.mpr ?_)
  have hpos : w.counts.freeBlocks.toNat ≠ 0 := by
    rw [ne_eq, hw.freeBlocks_eq_zero G]
    exact not_forall_not.mpr hfree
  refine ⟨p, base, ht, hn, ⟨num, hu.valid, hu.free⟩, hfull, ?_⟩
  rcases (hw.growFails_iff G _ _).mp hfails with h1 | ⟨h1, h2, h3⟩
  · exact .inl ⟨by omega, h1⟩
  · exact .inr ⟨by omega, h1, h2⟩

/-- **A failed `write_file_impl`** loses a block exactly when its directory grows in vain. -/
theorem WriteOutcome.noLeaks_iff (h : WriteOutcome G v path data false v') :
    NoLeaks G v' ↔ ¬ GrowsInVain fs v path 1 := by
  have hcore' := h.core hv.toCore
  cases h with
  | refused _ hv' why =>
    subst hv'
    refine iff_of_true (hv.toCore.noLeaks_iff.mpr hv.noLeak) fun hvain => ?_
    cases why with
    | path hnone => exact hvain.target_ne_none hnone
    | notReg ht hn _ => cases hn.symm.trans (hvain.step_eq_none ht)
    | noInode ht _ hall =>
      obtain ⟨x, hx, hfree⟩ := hvain.inode
      cases hfree.symm.trans (hall x hx)
  | undone _ ht hn hfull hlost hu => exact hv.noLeaks_full hv.world.bits rfl ht hn hfull hlost hu
  | created ht hn hroom hc =>
    refine iff_of_true (hcore'.noLeaks_iff.mpr fun b hb => hv.noLeak b (hc.leaked b hb))
      fun hvain => hroom (hvain.noRoom G hv.world.bits ht)
  | overwritten ht hn hw =>
    refine iff_of_true (hcore'.noLeaks_iff.mpr fun b hb => hv.noLeak b (hw.leaked b hb))
      fun hvain => ?_
    cases hn.symm.trans (hvain.step_eq_none ht)

/-- **A failed `mkdir_impl`**, which has taken a block for the new directory before. -/
theorem MkdirOutcome.noLeaks_iff (h : MkdirOutcome G v path false v') :
    NoLeaks G v' ↔ ¬ GrowsInVain fs v path 2 := by
  have hbits := hv.world.bits
  cases h with
  | refused _ hv' why =>
    subst hv'
    refine iff_of_true (hv.toCore.noLeaks_iff.mpr hv.noLeak) fun hvain => ?_
    cases why with
    | path hnone => exact hvain.target_ne_none hnone
    | found ht hn => cases hn.symm.trans (hvain.step_eq_none ht)
    | noInode ht _ hall =>
      obtain ⟨x, hx, hfree⟩ := hvain.inode
      cases hfree.symm.trans (hall x hx)
  | noBlock _ _ _ hnofree hu =>
    rw [hv.noLeaks_undone hu]
    refine iff_of_true (fun _ => id) fun hvain => ?_
    have := hvain.le
    have := (hbits.freeBlocks_eq_zero G).mpr hnofree
    omega
  | undone _ ht hn hblk hfull hlost hu =>
    exact hv.noLeaks_full (hbits.useBlock G hblk.1 hblk.2) (hbits.freeBlocks_useBlock G hblk) ht hn
      hfull hlost hu
  | created hok _ _ _ _ _ => cases hok

end Outcomes

/-- **A call that fails leaks exactly when it grows a directory in vain.** -/
theorem failed_call_leaks_iff (hs : Shows G st v) (hv : Consistent G v) (path data : List UInt8) :
    ((ext2WriteFile st path data).1 = false →
      ∃ v', Shows G (ext2WriteFile st path data).2 v' ∧
        (NoLeaks G v' ↔ ¬ GrowsInVain fs v path 1)) ∧
    ((ext2Mkdir st path).1 = false →
      ∃ v', Shows G (ext2Mkdir st path).2 v' ∧ (NoLeaks G v' ↔ ¬ GrowsInVain fs v path 2)) := by
  constructor
  · intro hfail
    obtain ⟨v', hs', _, hout⟩ := hs.writeFile hv.toCore path data
    rw [hfail] at hout
    exact ⟨v', hs', WriteOutcome.noLeaks_iff hv hout⟩
  · intro hfail
    obtain ⟨v', hs', _, hout⟩ := hs.mkdir hv.toCore path
    rw [hfail] at hout
    exact ⟨v', hs', MkdirOutcome.noLeaks_iff hv hout⟩

/-! ## A full directory -/

/-- A root directory whose twelve blocks are full of links to one file, and one free block. -/
def fullRoot : SmallImage where
  blocksCount := 20
  blocksPerGroup := 24
  inodes := [(2, inode (S_IFDIR ||| 0o755) 2 12288 7 12),
    (11, inode (S_IFREG ||| 0o644) 46 0 0 0)]
  blocks := (List.range 12).map fun k => (7 + k, fourRecords
    ((List.range 4).map fun j =>
      if k = 0 ∧ j < 2 then (List.replicate (j + 1) 46, 2)
      else ([UInt8.ofNat (97 + k), UInt8.ofNat (97 + j)], 11)))

theorem checked_fullRoot : Checked
    (fullRoot.dev fun _ => none) places sys 1 :=
  ⟨by decide +kernel, by decide +kernel⟩

/-- A path whose last component is as long as a name can be. -/
def longPath : List UInt8 := 47 :: List.replicate 255 120

/-- The call fails in the full directory. -/
theorem failed_call_leaks_iff_fullRoot :
    ∃ v', Shows checked_fullRoot.toLayout (ext2WriteFile fullRoot.mount longPath []).2 v' ∧
      (NoLeaks checked_fullRoot.toLayout v' ↔
        ¬ GrowsInVain fullRoot.fs fullRoot.view longPath 1) :=
  (failed_call_leaks_iff (shows checked_fullRoot) checked_fullRoot.consistent longPath
    []).1 (by decide +kernel)

/-- The call fails, the last free block is in use after it, and no inode refers to it. -/
theorem failed_write_leaks_block :
    Consistent checked_fullRoot.toLayout fullRoot.view ∧
      Shows checked_fullRoot.toLayout fullRoot.mount fullRoot.view ∧
      (ext2WriteFile fullRoot.mount longPath []).1 = false ∧ fullRoot.view.bused 19 = false ∧
      (diskView (ext2WriteFile fullRoot.mount longPath []).2.dev places).bused 19 = true ∧
      19 ∉ (allPlaces fullRoot.fs
        (diskView (ext2WriteFile fullRoot.mount longPath []).2.dev places)).map Prod.snd :=
  ⟨checked_fullRoot.consistent, shows checked_fullRoot, by decide +kernel,
    by decide +kernel, by decide +kernel, by decide +kernel⟩

end JuampiOs.Ext2
