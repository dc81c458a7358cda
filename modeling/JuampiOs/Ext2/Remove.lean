import JuampiOs.Ext2.Calls

/-!
# `remove_impl`

A directory is released when it is empty, a file when its last name goes. What holds for a name
other than "." and ".." fails for these two: there the directory and what the name stands for
are the same inode, or the name is the way back up. The rule therefore asks that such a name does
not stand for an empty directory, in which case the call is refused.
-/

namespace JuampiOs.Ext2

open Lib Function List View Spec BlocksKept Inode

variable {fs : Fs} {G : Layout fs} {v v' : View} {I : Nat → Option Inode}

/-! ## Outcomes -/

/-- A directory with nothing in it but "." and "..". -/
def View.EmptyDir (fs : Fs) (v : View) (x : Nat) : Prop :=
  v.liveDir fs x = true ∧ ∀ e ∈ dirEntries fs v.data (v.inode x), e.name = [46] ∨ e.name = [46, 46]

instance (fs : Fs) (v : View) (x : Nat) : Decidable (v.EmptyDir fs x) := by
  unfold View.EmptyDir; infer_instance

/-- Directory `p` has one entry less, for the inode `num`. -/
structure Removed (G : Layout fs) (v : View) (p : Nat) (base : List UInt8) (num : Nat)
    (v' : View) : Prop where
  /-- devices and short symbolic links have no blocks, and what is freed for them is not theirs -/
  world : (v.inode num).holdsBlocks fs = true → World G (logical fs v') v'
  mapped : ∀ x ino, logical fs v' x = some ino → Mapped G v' ino
  inodeBits : InodeBits fs v'
  frame : ∀ y, y ≠ p → y ≠ num → Frame fs v v' y
  parentLive : v'.iused p = v.iused p
  parentOk : DirOk fs v'.data (v'.inode p)
  entries : ∃ es₁ es₂ type, dirEntries fs v.data (v.inode p) = es₁ ++ ⟨base, num, type⟩ :: es₂ ∧
    dirEntries fs v'.data (v'.inode p) = es₁ ++ es₂

/-- The inode was an empty directory and is free now. -/
structure RemovedDir (G : Layout fs) (v : View) (p : Nat) (base : List UInt8) (num : Nat)
    (v' : View) : Prop extends Removed G v p base num v' where
  empty : v.EmptyDir fs num
  iused : v'.iused num = false
  parentLinks : (v'.inode p).linksCount = (v.inode p).dropLink.linksCount
  dirCount : ∀ g, (v'.gd g).usedDirsCount =
    if g = fs.inoGroup num then (v.gd g).usedDirsCount - 1 else (v.gd g).usedDirsCount

/-- The inode was not a directory; it is free now if this was its last name. -/
structure Unlinked (G : Layout fs) (v : View) (p : Nat) (base : List UInt8) (num : Nat)
    (v' : View) : Prop extends Removed G v p base num v' where
  file : (v.inode num).isDir = false
  iused : v'.iused num = decide ((v.inode num).dropLink.linksCount ≠ 0)
  inode : (v.inode num).dropLink.linksCount ≠ 0 → v'.inode num = (v.inode num).dropLink
  data : ∀ σ b, At fs (logical fs v) v.data num σ b → v'.data b = v.data b
  parentLinks : (v'.inode p).linksCount = (v.inode p).linksCount
  dirCount : ∀ g, (v'.gd g).usedDirsCount = (v.gd g).usedDirsCount

/-- Why a call is refused. -/
inductive RemoveRefused (fs : Fs) (v : View) (path : List UInt8) : Prop where
  /-- there is no directory to look in -/
  | path (h : v.target fs path = none)
  /-- there is nothing with this name -/
  | missing {p : Nat} {base : List UInt8} (ht : v.target fs path = some (p, base))
      (hn : (v.tree fs).step p base = none)
  /-- the directory is not empty -/
  | nonempty {p num : Nat} {base : List UInt8} (ht : v.target fs path = some (p, base))
      (hn : (v.tree fs).step p base = some num) (hdir : v.liveDir fs num = true)
      (h : ¬ v.EmptyDir fs num)

/-- How `remove_impl` can end. -/
inductive RemoveOutcome (G : Layout fs) (v : View) (path : List UInt8) (ok : Bool) (v' : View) :
    Prop where
  | refused (hok : ok = false) (hv : v' = v) (why : RemoveRefused fs v path)
  | rmdir {p num : Nat} {base : List UInt8} (hok : ok = true)
      (ht : v.target fs path = some (p, base)) (hn : (v.tree fs).step p base = some num)
      (hnamed : conv.Named base) (h : RemovedDir G v p base num v')
  | unlink {p num : Nat} {base : List UInt8} (hok : ok = true)
      (ht : v.target fs path = some (p, base)) (hn : (v.tree fs).step p base = some num)
      (hnamed : conv.Named base) (h : Unlinked G v p base num v')

/-! ## Releasing an inode -/

theorem releaseInode_spec {x : Nat} {ino : Inode} (hvalid : fs.ValidIno x) (isDir : Bool) :
    G.Spec (releaseInode fs x ino isDir) v fun _ v' => ∃ w, OnlyFrees v w ∧
      v' = (w.setInode x Inode.zero).unuseInode fs x isDir ∧
      (World G I v → I x = some ino → World G (update I x none) v') := by
  -- the blocks are given back
  have hfree : G.Spec (freeAllBlocks fs ino) v fun _ w => OnlyFrees v w ∧
      (World G I v → I x = some ino → World G (update I x (some ino.cleared)) w) := by
    by_cases hx : World G I v ∧ I x = some ino
    · refine weaken (freeAllBlocks_exact (hx.1.blocks.mapped hx.2)) ?_
      rintro _ w ⟨_, rfl⟩
      exact ⟨onlyFrees_freeMany _ v, fun hw hI => (hw.truncate hI).1⟩
    · refine weaken (freeAllBlocks_any ino v) ?_
      rintro _ w ⟨_, L, _, rfl⟩
      exact ⟨onlyFrees_freeMany L v, fun h1 h2 => absurd ⟨h1, h2⟩ hx⟩
  refine seq hfree ?_
  rintro _ w ⟨honly, hworld⟩
  refine Exact.seq (writeInode_exact hvalid zero) ?_
  refine weaken (freeInode_exact hvalid isDir) ?_
  rintro _ w' ⟨_, rfl⟩
  refine ⟨w, honly, rfl, fun h hI => ?_⟩
  have hset : World G (update I x (some ino.cleared)) (w.setInode x zero) :=
    (hworld h hI).of_at (setInode _ _ _) id
  refine hset.of_at (unuseInode fs _ x isDir) fun {y σ b} hb => ?_
  -- places of the released inode are places no more
  by_cases hy : y = x
  · subst hy
    obtain ⟨_, hnone, _⟩ := hb
    rw [update_self] at hnone
    cases hnone
  · unfold At at hb ⊢
    rw [update_of_ne hy] at hb ⊢
    exact hb

/-! ## Removing a directory -/

theorem Core.usedDirsCount_pos (h : Core G v) {x : Nat} (hx : v.liveDir fs x = true) :
    0 < (v.gd (fs.inoGroup x)).usedDirsCount := by
  obtain ⟨hg, hi, hno⟩ := inoPlace_lt G (valid_of_liveDir hx)
  rw [UInt16.lt_iff_toNat_lt, h.dirCount (fs.inoGroup x) hg]
  refine count_pos hi ?_
  show v.liveDir fs (fs.inodeNo (inoPlace fs x).1 (inoPlace fs x).2) = true
  rw [hno]
  exact hx

section Removing

variable {p num : Nat} {base : List UInt8} {es₁ es₂ : List Entry} {type : UInt8} {v₁ : View}

/-- The entry is gone and the inode free. -/
structure Released (G : Layout fs) (v v₁ : View) (p num : Nat) (v' : View) : Prop where
  inode : ∀ y, y ≠ num → v'.inode y = v.inode y
  iused : v'.iused = update v.iused num false
  data : v'.data = v₁.data
  inodeBits : InodeBits fs v'
  frame : ∀ y, y ≠ p → y ≠ num → Frame fs v v' y
  logical : logical fs v' = update (logical fs v) num none

theorem DirStep.released {u : View} {es : List Entry}
    (hstep : DirStep G p (logical fs v) v (v.inode p) (v.inode p) es v₁) (hu : OnlyFrees v₁ u)
    (hbits : InodeBits fs v) (hlive : v.live fs num = true) (isDir : Bool) :
    Released G v v₁ p num ((u.setInode num zero).unuseInode fs num isDir) := by
  obtain ⟨hvalid, hused⟩ := live_iff.mp hlive
  have hkept := hstep.kept.trans hu.kept
  set v2 := (u.setInode num zero).unuseInode fs num isDir
  have hiused : v2.iused = update v.iused num false := by
    show update u.iused num false = _
    rw [hkept.iused]
  have hinode : ∀ y, y ≠ num → v2.inode y = v.inode y := fun y hy => by
    show update u.inode num zero y = _
    rw [update_of_ne hy, hu.inode, hstep.inode, update_eq_self]
  refine ⟨hinode, hiused, hu.data, ?_, fun y hyp hyn =>
    (((hstep.frameAt hyp rfl).trans (hu.frame y)).trans (frame_setInode hyn)).trans
      (frame_unuseInode hyn), eq_update_iff.mpr ⟨logical_of_not_live ?_, fun y hy => ?_⟩⟩
  · have hbits := (hkept.trans (InodesKept.setInode u num zero)).inodeBits hbits
    refine hbits.unuseInode G hvalid ?_ isDir
    show u.iused num = true
    rw [hkept.iused]
    exact hused
  · unfold live
    rw [hiused, update_self, Bool.and_false]
  · unfold Ext2.logical live
    rw [hiused, update_of_ne hy, hinode y hy]

variable (h : Core G v) (hdir : v.liveDir fs p = true) (hne : p ≠ num)
  (hes : dirEntries fs v.data (v.inode p) = es₁ ++ ⟨base, num, type⟩ :: es₂)
  (hstep : DirStep G p (logical fs v) v (v.inode p) (v.inode p) (es₁ ++ es₂) v₁)
include h hdir hne hes hstep

theorem Core.rmdir_spec (hempty : v.EmptyDir fs num) :
    G.Spec (do
      releaseInode fs num (v.inode num) true
      let _ ← writeInode fs p (v.inode p).dropLink
      return true) v₁ fun ok v' => ok = true ∧ RemovedDir G v p base num v' := by
  have hnum := hempty.1
  obtain ⟨hplive, hpdir⟩ := liveDir_iff.mp hdir
  have hnumlive := (liveDir_iff.mp hnum).1
  have hI := update_self_of_eq (logical_of_liveDir hdir)
  have hworld1 : World G (logical fs v) v₁ := hI ▸ hstep.world
  refine seq (releaseInode_spec (I := logical fs v) (live_iff.mp hnumlive).1 true) ?_
  rintro _ w ⟨u, hu, rfl, hworld⟩
  have hworld := hworld hworld1 (logical_of_liveDir hnum)
  refine Exact.seq (writeInode_exact (live_iff.mp hplive).1 _) (ret ⟨rfl, ?_⟩)
  have R := hstep.released hu h.inodeBits hnumlive true
  set v2 := (u.setInode num zero).unuseInode fs num true with hv2
  set v3 := v2.setInode p (v.inode p).dropLink
  have hpino : v3.inode p = (v.inode p).dropLink := update_self ..
  have hiused : v3.iused p = v.iused p := by
    show v2.iused p = _
    rw [R.iused, update_of_ne hne]
  have hlog : logical fs v3 = update (update (logical fs v) num none) p
      (some (v.inode p).dropLink) :=
    eq_update_iff.mpr ⟨logical_eq_some ((live_congr hiused).trans hplive) hpino
      (holdsBlocks_of_isDir hpdir), fun y hy =>
        (frame_setInode hy).logical.trans (congrFun R.logical y)⟩
  have hpI : update (logical fs v) num none p = some (v.inode p) := by
    rw [update_of_ne hne]
    exact logical_of_liveDir hdir
  have hworld3 : World G (logical fs v3) v3 := by
    rw [hlog]
    have hdropped : World G (update _ p (some (v.inode p).dropLink)) v2 := hworld.of_ptr hpI rfl
    exact hdropped.of_at (setInode _ _ _) id
  refine ⟨⟨fun _ => hworld3, fun x ino hx => hworld3.blocks.mapped hx,
    (InodesKept.setInode _ _ _).inodeBits R.inodeBits,
    fun y hyp hyn => (R.frame y hyp hyn).trans (frame_setInode hyp), hiused, ?_,
    ⟨es₁, es₂, type, hes, ?_⟩⟩, hempty, ?_, by rw [hpino], fun g => ?_⟩
  · rw [hpino, show v3.data = v₁.data from R.data]
    exact (hstep.ok (hes ▸ (h.dirs p hdir).names).erase).setLinks _
  · rw [hpino, show v3.data = v₁.data from R.data]
    exact hstep.entries
  · show v2.iused num = false
    rw [R.iused, update_self]
  · have hcount := (hstep.kept.trans hu.kept).usedDirsCount
    have hpos := h.usedDirsCount_pos hnum
    rw [show v3.gd = v2.gd from rfl, hv2, unuseInode_gd]
    by_cases hg : g = fs.inoGroup num
    · subst hg
      simp [hcount, hpos]
    · simp [hg, hcount]

/-! ## Removing a name of a file -/

theorem Core.unlink_spec (hlive : v.live fs num = true) (hfile : (v.inode num).isDir = false) :
    G.Spec (do
      if (v.inode num).dropLink.linksCount = 0 then
        releaseInode fs num (v.inode num).dropLink false
      else
        let _ ← writeInode fs num (v.inode num).dropLink
      return true) v₁ fun ok v' => ok = true ∧ Unlinked G v p base num v' := by
  obtain ⟨hvalid, hused⟩ := live_iff.mp hlive
  have hI := update_self_of_eq (logical_of_liveDir hdir)
  have hworld1 : World G (logical fs v) v₁ := hI ▸ hstep.world
  have hdata : ∀ σ b, At fs (logical fs v) v.data num σ b → v₁.data b = v.data b := fun σ b hb =>
    hstep.frame num σ b (Ne.symm hne) hb
  -- with one link less the inode has the same blocks
  have hworld2 : (v.inode num).holdsBlocks fs = true →
      World G (update (logical fs v) num (some (v.inode num).dropLink)) v₁ := fun hb =>
    hworld1.of_ptr (logical_of_live hlive hb) rfl
  by_cases hlast : (v.inode num).dropLink.linksCount = 0
  · rw [if_pos hlast]
    refine seq (releaseInode_spec
      (I := update (logical fs v) num (some (v.inode num).dropLink)) hvalid false) ?_
    rintro _ w ⟨u, hu, rfl, hworld⟩
    refine ret ⟨rfl, ?_⟩
    have R := hstep.released hu h.inodeBits hlive false
    have hpino := R.inode p hne
    refine ⟨⟨fun hb => ?_, fun x ino hx => ?_, R.inodeBits, R.frame, ?_, ?_,
      ⟨es₁, es₂, type, hes, ?_⟩⟩, hfile, ?_, fun hlinks => absurd hlast hlinks, fun σ b hb => ?_,
      by rw [hpino], fun g => ?_⟩
    · have := hworld (hworld2 hb) (update_self ..)
      rw [update_idem] at this
      rw [R.logical]
      exact this
    · have hxn : x ≠ num := by
        rintro rfl
        rw [R.logical, update_self] at hx
        cases hx
      rw [R.logical, update_of_ne hxn] at hx
      exact (hworld1.blocks.mapped hx).congr hu.data rfl
    · rw [R.iused, update_of_ne hne]
    · rw [hpino, R.data]
      exact hstep.ok (hes ▸ (h.dirs p hdir).names).erase
    · rw [hpino, R.data]
      exact hstep.entries
    · rw [R.iused, update_self, hlast]
      rfl
    · rw [R.data]
      exact hdata σ b hb
    · have hcount := (hstep.kept.trans hu.kept).usedDirsCount
      rw [unuseInode_gd]
      by_cases hg : g = fs.inoGroup num
      · subst hg
        simp [hcount]
      · simp [hg, hcount]
  · rw [if_neg hlast]
    refine Exact.seq (writeInode_exact hvalid _) (ret ⟨rfl, ?_⟩)
    set v2 := v₁.setInode num (v.inode num).dropLink
    have hnum : v2.inode num = (v.inode num).dropLink := update_self ..
    have hother : ∀ y, y ≠ num → v2.inode y = v.inode y := fun y hy => by
      show update v₁.inode num _ y = _
      rw [update_of_ne hy, hstep.inode, update_eq_self]
    have hiused : v2.iused = v.iused := hstep.kept.iused
    have hlogical : ∀ y, y ≠ num → logical fs v2 y = logical fs v y := fun y hy => by
      unfold logical live
      rw [hiused, hother y hy]
    have hpino := hother p hne
    have hworld3 : (v.inode num).holdsBlocks fs = true → World G (logical fs v2) v2 := fun hb => by
      rw [eq_update_iff.mpr ⟨logical_eq_some ((live_congr (congrFun hiused num)).trans hlive) hnum hb,
        hlogical⟩]
      exact (hworld2 hb).of_at (setInode _ _ _) id
    refine ⟨⟨hworld3, fun x ino hx => ?_,
      (hstep.kept.trans (InodesKept.setInode _ _ _)).inodeBits h.inodeBits,
      fun y hyp hyn => (hstep.frameAt hyp rfl).trans (frame_setInode hyn), by rw [hiused],
      by rw [hpino]; exact hstep.ok (hes ▸ (h.dirs p hdir).names).erase,
      ⟨es₁, es₂, type, hes, by rw [hpino]; exact hstep.entries⟩⟩,
      hfile, ?_, fun _ => hnum, hdata, by rw [hpino], fun g => hstep.kept.usedDirsCount g⟩
    · by_cases hxn : x = num
      · subst hxn
        obtain ⟨_, rfl, hb⟩ := logical_some hx
        rw [hnum] at hb
        exact (hworld3 hb).blocks.mapped hx
      · rw [hlogical x hxn] at hx
        exact (hworld1.blocks.mapped hx).congr rfl rfl
    · rw [hiused, hused]
      simp [hlast]

end Removing

/-! ## The call -/

/-- What a call of `remove_impl` must not be asked to do: take an empty directory out under the
name "." or "..". -/
def RemovesDot (fs : Fs) (v : View) (path : List UInt8) : Prop :=
  ∃ p base num, v.target fs path = some (p, base) ∧ (v.tree fs).step p base = some num ∧
    ¬ conv.Named base ∧ v.EmptyDir fs num

theorem mem_dirEntries_of_step {p num : Nat} {base : List UInt8}
    (hn : (v.tree fs).step p base = some num) :
    ∃ e ∈ dirEntries fs v.data (v.inode p), e.name = base ∧ e.inode = num := by
  have hmem := Tree.mem_of_step hn
  have hdir : v.liveDir fs p = true := by
    by_contra hd
    simp [tree, hd] at hmem
  simp only [tree, hdir, if_true] at hmem
  obtain ⟨e, he, hpair⟩ := mem_map.mp hmem
  exact ⟨e, he, congrArg Prod.fst hpair, congrArg Prod.snd hpair⟩

/-- **`remove_impl`** ends in one of its outcomes. -/
theorem removeImpl_spec (h : Core G v) (path : List UInt8) (hdot : ¬ RemovesDot fs v path) :
    G.Spec (removeImpl fs path) v fun ok v' => RemoveOutcome G v path ok v' := by
  have hr := h.readable
  refine Exact.seq (hr.resolveParent_exact path) ?_
  cases ht : v.target fs path with
  | none => exact ret (RemoveOutcome.refused rfl rfl (RemoveRefused.path ht))
  | some pb =>
    obtain ⟨p, base⟩ := pb
    have hdir := (hr.target ht).dir
    refine Exact.seq (hr.lookup (liveDir_iff.mp hdir).1 base) ?_
    cases hn : (v.tree fs).step p base with
    | none => exact ret (RemoveOutcome.refused rfl rfl (RemoveRefused.missing ht hn))
    | some num =>
      have hlive := hr.live_step hn
      have hvalid := (live_iff.mp hlive).1
      simp only [Option.getD_some]
      rw [if_neg hvalid.ne_zero]
      refine Exact.seq (readInode_exact hvalid) ?_
      dsimp only
      have hmem := Tree.mem_of_step hn
      -- the entry is there to be removed
      have hremove : G.Spec (dirRemove fs (v.inode p) base) v fun done w => done = true ∧
          ∃ es₁ type es₂, dirEntries fs v.data (v.inode p) = es₁ ++ ⟨base, num, type⟩ :: es₂ ∧
            DirStep G p (logical fs v) v (v.inode p) (v.inode p) (es₁ ++ es₂) w := by
        have hok := h.dirs p hdir
        refine weaken (dirRemove_spec h.world (logical_of_liveDir hdir) rfl hok.toDirTiled) ?_
        rintro done w (⟨_, _, hnone⟩ | ⟨hdone, es₁, e, es₂, hes, hiff, hstep⟩)
        · obtain ⟨e, he, hname, _⟩ := mem_dirEntries_of_step hn
          exact absurd hname (hnone e he (hok.names e he))
        have hname := hiff.mpr (hok.firstShort G)
        refine ⟨hdone, es₁, e.type, es₂, ?_, hstep⟩
        have hpair : (base, e.inode) ∈ (v.tree fs).ents p := by
          simp only [tree, hdir, if_true, hes, map_append, map_cons]
          refine mem_append_right _ (mem_cons.mpr (.inl ?_))
          rw [← hname]
          rfl
        have hnum : e.inode = num := h.tree.unique hpair hmem
        rw [hes, ← hnum, ← hname]
      cases hisdir : (v.inode num).isDir with
      | true =>
        have hnumdir : v.liveDir fs num = true := liveDir_iff.mpr ⟨hlive, hisdir⟩
        refine Exact.seq (walkDir_exact (h.world.blocks.mapped (logical_of_liveDir hnumdir))
          (h.dirs num hnumdir).isDir countCb 0) ?_
        by_cases hempty : v.EmptyDir fs num
        swap
        · rw [if_pos fun h0 => hempty ⟨hnumdir, (foldStop_count _).mp h0⟩]
          exact ret (RemoveOutcome.refused rfl rfl (RemoveRefused.nonempty ht hn hnumdir hempty))
        have hnamed : conv.Named base := by
          by_contra hnamed
          exact hdot ⟨p, base, num, ht, hn, hnamed, hempty⟩
        have hne : p ≠ num := by
          rintro rfl
          obtain ⟨e, he, hname, _⟩ := mem_dirEntries_of_step hn
          rcases hempty.2 e he with h46 | h46
          · exact hnamed.1 (hname.symm.trans h46)
          · exact hnamed.2 (hname.symm.trans h46)
        have hcount := (foldStop_count _).mpr hempty.2
        simp only [ne_eq, hcount, not_true_eq_false, if_false]
        refine seq hremove ?_
        rintro done w ⟨rfl, es₁, type, es₂, hes, hstep⟩
        refine weaken (h.rmdir_spec hdir hne hes hstep hempty) ?_
        rintro ok v' ⟨rfl, hrem⟩
        exact RemoveOutcome.rmdir rfl ht hn hnamed hrem
      | false =>
        have hnumdir : (v.tree fs).isDir num = false := by
          show (v.live fs num && (v.inode num).isDir) = false
          rw [hisdir, Bool.and_false]
        have hne : p ≠ num := by
          rintro rfl
          exact absurd hdir (by
            show ¬ (v.tree fs).isDir p = true
            rw [hnumdir]
            decide)
        have hnamed := h.tree.named_of_file hmem hnumdir
        refine Exact.seq (Exact.ret 0) ?_
        refine seq hremove ?_
        rintro done w ⟨rfl, es₁, type, es₂, hes, hstep⟩
        refine weaken (h.unlink_spec hdir hne hes hstep hlive hisdir) ?_
        rintro ok v' ⟨rfl, hrem⟩
        exact RemoveOutcome.unlink rfl ht hn hnamed hrem

end JuampiOs.Ext2
