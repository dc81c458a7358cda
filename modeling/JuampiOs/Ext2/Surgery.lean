import JuampiOs.Ext2.Image

/-!
# Record surgery

`dir_add` and `dir_remove` keep the blocks of a directory tiled by records that are multiples of 4
bytes long, and add or take out one entry, exactly if the record they pick has a name of at most
255 bytes (`dir_surgery`). On a volume that does not record types, `walk_dir` takes the type byte
for the high byte of the length of the name and they do not: `dir_add` cuts a record with such a
name short (`dir_add_cuts_long_name`), and `dir_remove` takes it for one with a shorter name.
-/

namespace JuampiOs.Ext2

open SmallImage

variable {fs : Fs} {G : Layout fs} {st : Mount} {v : View} {I : Nat → Option Inode} {dir : Inode}
  {p : Nat}

/-- **Record surgery.** On a consistent file system, `dir_add` and `dir_remove` that succeed leave
the blocks of the directory tiled by records, and add or take out exactly one entry: `dir_add`
exactly if the first record with room, `dir_remove` exactly if the first one it matches, has no name
that is too long. -/
theorem dir_surgery (hst : Shows G st v) (h : World G I v) (hx : I p = some dir)
    (hino : v.inode p = dir) (hvalid : fs.ValidIno p) (hok : DirTiled fs v.data dir)
    (hal : DirAligned fs v.data dir) (name : List UInt8) :
    (∀ child type, 1 ≤ name.length → name.length ≤ 255 → child ≠ 0 → child < 2 ^ 32 →
      (st.run (dirAdd fs p dir name child type)).1.1 = true →
      ∃ v', Shows G (st.run (dirAdd fs p dir name child type)).2 v' ∧
        ((DirTiled fs v'.data (st.run (dirAdd fs p dir name child type)).1.2 ∧
          DirAligned fs v'.data (st.run (dirAdd fs p dir name child type)).1.2 ∧
          (dirEntries fs v'.data (st.run (dirAdd fs p dir name child type)).1.2).Perm
            (⟨name, child, typeByte fs type⟩ :: dirEntries fs v.data dir)) ↔
          FirstShort fs (HasRoom · name ·) v.data dir)) ∧
    ((st.run (dirRemove fs dir name)).1 = true →
      ∃ v', Shows G (st.run (dirRemove fs dir name)).2 v' ∧ DirTiled fs v'.data dir ∧
        DirAligned fs v'.data dir ∧
        ((∃ e, e.name = name ∧
          (dirEntries fs v.data dir).Perm (e :: dirEntries fs v'.data dir)) ↔
          FirstShort fs (Matches · name ·) v.data dir)) := by
  constructor
  · intro child type _ hname hpos hchild hdone
    have hspec : G.Spec (dirAdd fs p dir name child type) v _ :=
      dirAdd_spec h hx hino hvalid hok (Nat.lt_succ_of_le hname) hchild hpos
    obtain ⟨v', hst', hr⟩ := hst.run hspec
    rcases hr with ⟨_, _, hcut, hadded⟩ | ⟨hfail, _⟩
    · refine ⟨v', hst', fun hgood => hcut hgood.1, fun hshort => ?_⟩
      obtain ⟨es1, es2, hold, hstep⟩ := hadded hshort
      refine ⟨hstep.tiled, hstep.aligned hal, ?_⟩
      rw [hstep.entries, hold]
      exact List.perm_middle
    · rw [hdone] at hfail
      cases hfail
  · intro hdone
    have hspec : G.Spec (dirRemove fs dir name) v _ := dirRemove_spec h hx hino hok
    obtain ⟨v', hst', hr⟩ := hst.run hspec
    rcases hr with ⟨hfail, _⟩ | ⟨_, es1, e, es2, hold, hname, hstep⟩
    · rw [hdone] at hfail
      cases hfail
    have hperm : (dirEntries fs v.data dir).Perm (e :: dirEntries fs v'.data dir) := by
      rw [hstep.entries, hold]
      exact List.perm_middle
    refine ⟨v', hst', hstep.tiled, hstep.aligned hal, hname.symm.trans ?_ |>.symm⟩
    -- an entry that makes up the difference is the one that was taken out
    refine ⟨fun heq => ⟨e, heq, hperm⟩, fun ⟨e', heq, hperm'⟩ => ?_⟩
    rw [← List.singleton_perm_singleton.mp
      ((List.perm_append_right_iff (dirEntries fs v'.data dir)).mp (hperm'.symm.trans hperm))]
    exact heq

/-- `dir_add` gives the empty root directory an entry, and `dir_remove` takes the one for itself out
of it. -/
theorem dir_surgery_root : let fs := (empty 24).fs
    let st := (empty 24).mount
    let dir := (empty 24).view.inode 2
    let es := dirEntries fs (empty 24).view.data dir
    (∃ v' : View, (dirEntries fs v'.data (st.run (dirAdd fs 2 dir [97] 11 FT_REG)).1.2).Perm
      (⟨[97], 11, typeByte fs FT_REG⟩ :: es)) ∧
    ∃ (v' : View) (e : Entry), e.name = [46] ∧ es.Perm (e :: dirEntries fs v'.data dir) := by
  have hcore : Core checked_empty.toLayout (empty 24).view :=
    checked_empty.consistent.toCore
  have hlive : (empty 24).view.liveDir (empty 24).fs 2 = true := by
    decide +kernel
  have hone : dirBlocks (empty 24).fs ((empty 24).view.inode 2) = 1 := by
    decide +kernel
  have hal : DirAligned (empty 24).fs (empty 24).view.data
      ((empty 24).view.inode 2) := by
    intro i hi _
    obtain rfl : i = 0 := by omega
    refine (aligned_iff (by decide +kernel) ?_).mpr (show ∀ o ∈ [0, 12], 4 ∣ o by decide)
    refine Tiles.cons ⟨by decide +kernel, by decide +kernel, by decide +kernel⟩ ?_
    rw [show 0 + _ = 12 by decide +kernel]
    refine Tiles.cons ⟨by decide +kernel, by decide +kernel, by decide +kernel⟩ ?_
    rw [show 12 + _ = (empty 24).fs.blockSize by decide +kernel]
    exact Tiles.nil _
  have hok := hcore.dirs 2 hlive
  have hboth := @dir_surgery (empty 24).fs _ _ _ _ ((empty 24).view.inode 2) 2 (shows checked_empty)
    hcore.world (logical_of_liveDir hlive) rfl (by decide +kernel) hok.toDirTiled hal
  obtain ⟨v', _, hadd⟩ := (hboth [97]).1 11 FT_REG (by decide) (by decide) (by decide) (by decide)
    (by decide +kernel)
  obtain ⟨v'', _, _, _, hrem⟩ := (hboth [46]).2 (by decide +kernel)
  have hshort := fun P => hok.firstShort (P := P) checked_empty.toLayout
  exact ⟨⟨v', (hadd.mpr (hshort _)).2.2⟩, ⟨v'', hrem.mpr (hshort _)⟩⟩

/-- A root directory with one record, whose name has 256 bytes: its type byte is 1 and the volume
does not record types. -/
def longName : SmallImage where
  blocksCount := 24
  blocksPerGroup := 24
  inodes := [(2, inode (S_IFDIR ||| 0o755) 2 1024 7 1)]
  blocks := [(7, putDirent Buf.zero 0 12 1024 [] 1)]

/-- What `walk_dir` takes the first record of block 7 for: its length and that of its name. -/
def longNameRecord (st : Mount) : Option (Nat × Nat) :=
  (st.run (readBlock 7)).1.map fun b =>
    ((Dirent.at b 0).recLen, (entryAt longName.fs b 0).name.length)

/-- **`dir_add` cuts a record with a long name short**: a record of the whole block becomes one of
8 bytes, and its name still has 256. -/
theorem dir_add_cuts_long_name :
    longNameRecord longName.mount = some (1024, 256) ∧
      (longName.mount.run
        (dirAdd longName.fs 2 (longName.view.inode 2) [97] 13 FT_REG)).1.1 = true ∧
      longNameRecord (longName.mount.run
        (dirAdd longName.fs 2 (longName.view.inode 2) [97] 13 FT_REG)).2 = some (8, 256) := by
  decide +kernel

end JuampiOs.Ext2
