import JuampiOs.Ext2.WriteFile
import JuampiOs.Ext2.Mkdir
import JuampiOs.Ext2.Remove

/-!
# Calls keep the file system consistent

Each way a call can end adds one entry to the tree, takes one out, or leaves the tree as it is,
and keeps `Core`. Link counts of directories are kept too (`DirLinks`), except that the 16-bit
count of a directory must not overflow.
-/

namespace JuampiOs.Ext2

open Lib Function List View Finset

variable {fs : Fs} {G : Layout fs} {v v' : View} {p num : Nat} {base : List UInt8}

/-! ## The tree is as it was -/

variable {x : Nat}

theorem ents_of_not_liveDir (hx : v.liveDir fs x = false) : (v.tree fs).ents x = [] := by
  simp [tree, hx]

variable {ino : Inode}

theorem not_isReg_of_isDir (hdir : ino.isDir = true) (hreg : ino.isReg = true) :
    False := by
  rw [isDir_not_isReg hdir] at hreg
  cases hreg

theorem not_liveDir_of_isReg (h : (v.inode num).isReg = true) : v.liveDir fs num = false := by
  by_contra hd
  exact not_isReg_of_isDir (liveDir_iff.mp (Bool.not_eq_false _ ▸ hd)).2 h

theorem not_liveDir_of_file (h : (v.inode x).isDir = false) : v.liveDir fs x = false := by
  unfold liveDir
  rw [h, Bool.and_false]

theorem ne_of_liveDir (hx : v.liveDir fs x = true) (hnum : v.liveDir fs num = false) :
    x ≠ num := by
  rintro rfl
  rw [hnum] at hx
  cases hx

/-- Nothing happens beside inode `num`, which is no directory and keeps its names. -/
structure Aside (G : Layout fs) (v : View) (num : Nat) (v' : View) : Prop where
  old : v.liveDir fs num = false
  new : v'.liveDir fs num = false
  frame : ∀ x, x ≠ num → Frame fs v v' x
  iused : v'.iused = v.iused
  world : World G (logical fs v') v'
  inodeBits : InodeBits fs v'
  dirCount : ∀ g, (v'.gd g).usedDirsCount = (v.gd g).usedDirsCount
  /-- if it is in use at all -/
  file : v.live fs num = true → (v'.inode num).isReg = true ∧
    inodeFileSize fs (v'.inode num) < 2 ^ 41 ∧
    (v'.inode num).linksCount = (v.inode num).linksCount

namespace Aside

variable (h : Aside G v num v')
include h

/-- The tree is what it was. -/
theorem tree_eq : v'.tree fs = v.tree fs := by
  have hsame : ∀ x, (v'.tree fs).isDir x = (v.tree fs).isDir x ∧
      (v'.tree fs).ents x = (v.tree fs).ents x := fun x => by
    by_cases hx : x = num
    · subst hx
      rw [ents_of_not_liveDir h.new, ents_of_not_liveDir h.old]
      exact ⟨h.new.trans h.old.symm, rfl⟩
    · exact ⟨(h.frame x hx).liveDir, (h.frame x hx).ents⟩
  exact congrArg₂ Tree.mk (funext fun x => (hsame x).1) (funext fun x => (hsame x).2)

theorem live (x : Nat) : v'.live fs x = v.live fs x := by
  unfold View.live
  rw [h.iused]

theorem liveDir (x : Nat) : v'.liveDir fs x = v.liveDir fs x :=
  congrFun (congrArg Tree.isDir h.tree_eq) x

theorem core (hv : Core G v) : Core G v' := by
  refine ⟨⟨h.inodeBits, fun g hg => ?_, fun x hx => ?_, fun x hx hreg => ?_, ?_,
    fun x name y hy => ?_, fun x hx hr => ?_, fun x name y hn hy => ?_, fun x hx hr => ?_,
    fun x hx hd hr => ?_⟩, h.world⟩
  · rw [h.dirCount, hv.dirCount g hg]
    exact (dirsIn_congr (fun x _ => h.liveDir x) hg).symm
  · have hf := h.frame x (ne_of_liveDir hx h.new)
    rw [h.liveDir] at hx
    obtain ⟨hlive, hdir⟩ := liveDir_iff.mp hx
    exact hf.dirOk hlive (holdsBlocks_of_isDir hdir) (hv.dirs x hx)
  · rw [h.live] at hx
    by_cases hne : x = num
    · subst hne
      exact (h.file hx).2.1
    · rw [(h.frame x hne).inode] at hreg ⊢
      exact hv.files x hx hreg
  · rw [h.tree_eq]
    exact hv.tree
  · rw [h.tree_eq] at hy
    rw [h.live]
    exact hv.targets x name y hy
  · rw [h.iused]
    exact hv.reserved x hx hr
  · rw [h.tree_eq] at hy
    exact hv.unreserved x name y hn hy
  · rw [h.live] at hx
    rw [h.tree_eq]
    exact hv.reach x hx hr
  · rw [h.live] at hx
    have hfile : v.liveDir fs x = false := (h.liveDir x).symm.trans (not_liveDir_of_file hd)
    have hd' : (v.inode x).isDir = false := by simpa [View.liveDir, hx] using hfile
    have hlinks : (v'.inode x).linksCount = (v.inode x).linksCount := by
      by_cases hne : x = num
      · subst hne
        exact (h.file hx).2.2
      · rw [(h.frame x hne).inode]
    rw [hlinks, h.tree_eq]
    exact hv.links x hx hd' hr

theorem plain (hp : Plain fs v) : Plain fs v' := fun x hx hres => by
  rw [h.live] at hx
  by_cases hne : x = num
  · subst hne
    exact .inl (h.file hx).1
  · rw [(h.frame x hne).inode]
    exact hp x hx hres

theorem dirLinks (hl : DirLinks fs v) : DirLinks fs v' := fun x hx => by
  have hf := h.frame x (ne_of_liveDir hx h.new)
  rw [h.liveDir] at hx
  rw [h.tree_eq, hf.inode]
  exact hl x hx

end Aside

variable {lost : Nat → Prop} {data : List UInt8} {ok : Bool}

theorem Undone.aside (h : Undone G v num lost v') : Aside G v num v' where
  old := not_liveDir_of_free h.free
  new := not_liveDir_of_free (by rw [h.iused]; exact h.free)
  frame := h.frame
  iused := h.iused
  world := h.world
  inodeBits := h.inodeBits
  dirCount := h.dirCount
  file hlive := absurd rfl (ne_of_free hlive h.free)

theorem inodeFileSize_ofNat {n : Nat} (hsize : ino.size = UInt32.ofNat n)
    (hacl : ino.dirAcl = 0) : inodeFileSize fs ino = n % 2 ^ 32 := by
  have hn : (UInt32.ofNat n).toNat = n % 2 ^ 32 := UInt32.toNat_ofNat'
  unfold inodeFileSize
  rw [hsize, hacl, hn]
  simp

namespace Overwritten

variable (h : Overwritten G v num data ok v')
include h

theorem isReg : (v'.inode num).isReg = true := by
  obtain ⟨block, blocks, hino⟩ := h.inode
  rw [hino]
  exact h.reg

theorem fileSize : inodeFileSize fs (v'.inode num) = data.length % 2 ^ 32 := by
  obtain ⟨block, blocks, hino⟩ := h.inode
  rw [hino]
  exact inodeFileSize_ofNat rfl rfl

theorem aside (hv : Core G v) : Aside G v num v' where
  old := not_liveDir_of_isReg h.reg
  new := not_liveDir_of_isReg h.isReg
  frame := h.frame
  iused := h.kept.iused
  world := h.world
  inodeBits := h.kept.inodeBits hv.inodeBits
  dirCount := h.kept.usedDirsCount
  file _ := by
    obtain ⟨block, blocks, hino⟩ := h.inode
    refine ⟨h.isReg, ?_, by rw [hino]⟩
    rw [h.fileSize]
    omega

end Overwritten

/-! ## A directory and an inode change -/

section Apart

variable (hframe : ∀ x, x ≠ p → x ≠ num → Frame fs v v' x)
  (hparent : DirOk fs v'.data (v'.inode p)) {x : Nat}
include hframe hparent

theorem dirOk_of_apart (hdirs : ∀ x, v.liveDir fs x = true → DirOk fs v.data (v.inode x))
    (hxn : x ≠ num) (hx : v'.liveDir fs x = true) : DirOk fs v'.data (v'.inode x) := by
  by_cases hxp : x = p
  · subst hxp
    exact hparent
  · have hf := hframe x hxp hxn
    rw [hf.liveDir] at hx
    obtain ⟨hlive, hdir⟩ := liveDir_iff.mp hx
    exact hf.dirOk hlive (holdsBlocks_of_isDir hdir) (hdirs x hx)

/-- A file other than `num` is neither of the two. -/
theorem frame_of_apart (hxn : x ≠ num) (hd : (v'.inode x).isDir = false) : Frame fs v v' x := by
  refine hframe x ?_ hxn
  rintro rfl
  rw [hparent.isDir] at hd
  cases hd

theorem fileSize_of_apart (hfiles : ∀ x, v.live fs x = true → (v.inode x).isReg = true →
      inodeFileSize fs (v.inode x) < 2 ^ 41)
    (hxn : x ≠ num) (hx : v'.live fs x = true) (hreg : (v'.inode x).isReg = true) :
    inodeFileSize fs (v'.inode x) < 2 ^ 41 := by
  have hf := frame_of_apart hframe hparent hxn
    (Bool.eq_false_iff.mpr fun hdir => not_isReg_of_isDir hdir hreg)
  rw [hf.live] at hx
  rw [hf.inode] at hreg ⊢
  exact hfiles x hx hreg

theorem plain_of_apart (hp : Plain fs v) (hnum : v'.live fs num = true → fs.firstIno ≤ num →
      (v'.inode num).isReg = true ∨ (v'.inode num).isDir = true) : Plain fs v' := fun x hx hres => by
  by_cases hxn : x = num
  · subst hxn
    exact hnum hx hres
  by_cases hxp : x = p
  · subst hxp
    exact .inr hparent.isDir
  · have hf := hframe x hxp hxn
    rw [hf.live] at hx
    rw [hf.inode]
    exact hp x hx hres

theorem linksCount_of_apart (hlinks : (v'.inode p).linksCount = (v.inode p).linksCount)
    (hxn : x ≠ num) : (v'.inode x).linksCount = (v.inode x).linksCount := by
  by_cases hxp : x = p
  · subst hxp
    exact hlinks
  · rw [(hframe x hxp hxn).inode]

end Apart

variable (hv : Core G v) (hp : v.liveDir fs p = true)

/-! ## One entry more -/

section

variable (hn : (v.tree fs).step p base = none)

include hv hp hn in
theorem Core.named_of_new : conv.Named base := by
  constructor
  · rintro rfl
    exact Tree.step_eq_none.mp hn p (hv.tree.dot p hp)
  · rintro rfl
    obtain ⟨y, hy, _⟩ := hv.tree.up p hp
    exact Tree.step_eq_none.mp hn y hy

include hv hp hn in
theorem Core.canAdd (hfree : v.iused num = false) : (v.tree fs).CanAdd conv p base num := by
  refine ⟨hp, hv.named_of_new hp hn, hn, fun y m hm => ?_, not_liveDir_of_free hfree⟩
  exact ne_of_free (hv.targets y m num hm) hfree rfl

namespace Created

variable (h : Created G v p base num v')
include h

theorem live (hx : x ≠ num) : v'.live fs x = v.live fs x := by
  unfold View.live
  rw [h.iused, update_of_ne hx]

theorem live_new : v'.live fs num = true :=
  live_iff.mpr ⟨h.valid, by rw [h.iused, update_self]⟩

include hp

theorem ne : p ≠ num :=
  ne_of_free (liveDir_iff.mp hp).1 h.free

theorem liveDir_parent : v'.liveDir fs p = true :=
  liveDir_iff.mpr ⟨by rw [h.live (h.ne hp)]; exact (liveDir_iff.mp hp).1, h.parentOk.isDir⟩

theorem adds (hnew : (v'.liveDir fs num = true ∧
        (v'.tree fs).ents num = [(conv.dot, num), (conv.dotdot, p)]) ∨
      v'.liveDir fs num = false) :
    Tree.Adds conv (v.tree fs) (v'.tree fs) p base num := by
  have hp' := h.liveDir_parent hp
  refine ⟨⟨fun y hyp hyn => (h.frame y hyp hyn).ents, ?_, fun y hyn => ?_⟩, ?_⟩
  · obtain ⟨es1, es2, type, h1, h2⟩ := h.entries
    refine ⟨es1.map Entry.pair, es2.map Entry.pair, ?_, ?_⟩
    · simp [tree, hp, h1]
    · simp [tree, hp', h2, Entry.pair]
  · by_cases hyp : y = p
    · subst hyp
      exact hp'.trans hp.symm
    · exact (h.frame y hyp hyn).liveDir
  · rcases hnew with hnew | hnew
    · exact .inl hnew
    · exact .inr ⟨hnew, ents_of_not_liveDir hnew⟩

end Created

theorem mem_inodes (hx : v.liveDir fs x = true) : x ∈ fs.inodes :=
  Finset.mem_range.mpr (Nat.lt_succ_of_le (valid_of_liveDir hx).2)

include hv hp hn in
/-- **An entry for a new inode keeps `Core`.** -/
theorem Core.of_created (hc : Created G v p base num v')
    (hadds : Tree.Adds conv (v.tree fs) (v'.tree fs) p base num) (hcount : DirCount fs v')
    (hdir : v'.liveDir fs num = true → DirOk fs v'.data (v'.inode num))
    (hfile : (v'.inode num).isReg = true → inodeFileSize fs (v'.inode num) < 2 ^ 41)
    (hlinks : (v'.inode num).isDir = false → (v'.inode num).linksCount = 1) : Core G v' := by
  have hcan := hv.canAdd hp hn hc.free
  have hpn := hc.ne hp
  refine ⟨⟨hc.inodeBits, hcount, fun x hx => ?_, fun x hx hreg => ?_,
    hadds.ok hv.tree hcan, fun x name y hy => ?_, fun x hx hr => ?_, fun x name y hname hy => ?_,
    fun x hx hr => ?_, fun x hx hd hr => ?_⟩, hc.world⟩
  · by_cases hxn : x = num
    · subst hxn
      exact hdir hx
    · exact dirOk_of_apart hc.frame hc.parentOk hv.dirs hxn hx
  · by_cases hxn : x = num
    · subst hxn
      exact hfile hreg
    · exact fileSize_of_apart hc.frame hc.parentOk hv.files hxn hx hreg
  · by_cases hxn : x = num
    · subst hxn
      rcases (hadds.mem_new hy).2 with ⟨_, rfl⟩ | ⟨_, rfl⟩
      · exact hc.live_new
      · exact (liveDir_iff.mp (hc.liveDir_parent hp)).1
    · rcases (hadds.mem_iff hxn).mp hy with hold | ⟨_, _, rfl⟩
      · have hyn : y ≠ num := by
          rintro rfl
          exact hcan.newNode x name hold
        rw [hc.live hyn]
        exact hv.targets x name y hold
      · exact hc.live_new
  · rw [hc.iused]
    by_cases hxn : x = num
    · rw [hxn, update_self]
    · rw [update_of_ne hxn]
      exact hv.reserved x hx hr
  · rcases (hadds.mem_iff (hadds.named_ne hy hname)).mp hy with hold | ⟨_, _, rfl⟩
    · exact hv.unreserved x name y hname hold
    · exact hv.reserved_le hc.valid hc.free
  · by_cases hxn : x = num
    · subst hxn
      exact Tree.Reach.entry (hadds.reach hv.tree hcan.notDir (hv.tree.reach p hp)) hcan.named
        ((hadds.mem_iff hpn).mpr (.inr ⟨rfl, rfl, rfl⟩))
    · rw [hc.live hxn] at hx
      exact hadds.reach hv.tree hcan.notDir (hv.reach x hx hr)
  · rw [hadds.refs_eq hv.tree hp hcan.notDir (mem_inodes hp) (not_liveDir_of_file hd)]
    by_cases hxn : x = num
    · subst hxn
      have hzero : (v.tree fs).refs fs.inodes x = 0 := by
        refine sum_eq_zero fun y _ => countP_eq_zero.mpr ?_
        rintro ⟨m, z⟩ hm
        simp only [decide_eq_true_eq]
        rintro rfl
        exact hcan.newNode y m hm
      rw [hzero, if_pos rfl, hlinks hd]
      rfl
    · have hf := frame_of_apart hc.frame hc.parentOk hxn hd
      rw [if_neg hxn, add_zero, hf.inode]
      rw [hc.live hxn] at hx
      rw [hf.inode] at hd
      exact hv.links x hx hd hr

/-! ### A new file -/

namespace CreatedFile

variable {data : List UInt8} {ok : Bool}
variable (h : CreatedFile G v p base num data ok v')
include h

theorem isReg : (v'.inode num).isReg = true := by
  obtain ⟨block, blocks, hino⟩ := h.inode
  rw [hino]
  exact newFile_isReg

theorem not_liveDir : v'.liveDir fs num = false :=
  not_liveDir_of_isReg h.isReg

include hp in
theorem adds : Tree.Adds conv (v.tree fs) (v'.tree fs) p base num :=
  h.toCreated.adds hp (.inr h.not_liveDir)

theorem fileSize : inodeFileSize fs (v'.inode num) = data.length % 2 ^ 32 := by
  obtain ⟨block, blocks, hino⟩ := h.inode
  rw [hino]
  exact inodeFileSize_ofNat rfl rfl

include hv hp hn

theorem core : Core G v' := by
  refine hv.of_created hp hn h.toCreated (h.adds hp) (fun g hg => ?_)
    (fun hd => absurd hd (by rw [h.not_liveDir]; decide)) (fun _ => ?_) fun _ => ?_
  · rw [h.dirCount, hv.dirCount g hg]
    refine (dirsIn_congr (fun x _ => ?_) hg).symm
    by_cases hx : x = num
    · subst hx
      rw [h.not_liveDir, not_liveDir_of_free h.free]
    · exact (h.adds hp).isDir x hx
  · rw [h.fileSize]
    omega
  · obtain ⟨block, blocks, hino⟩ := h.inode
    rw [hino]

theorem dirLinks (hl : DirLinks fs v) : DirLinks fs v' := fun x hx => by
  have hxn := ne_of_liveDir hx h.not_liveDir
  have hdir : v.liveDir fs x = true := ((h.adds hp).isDir x hxn).symm.trans hx
  have hlinks := linksCount_of_apart h.frame h.parentOk h.parentLinks hxn
  have hnew : (v'.tree fs).isDir num = false := h.not_liveDir
  rw [hlinks, hl x hdir, (h.adds hp).subdirs_eq (hv.canAdd hp hn h.free) hxn, hnew]
  simp

end CreatedFile

/-! ### A new directory -/

namespace CreatedDir

variable (h : CreatedDir G v p base num v')
include h

theorem liveDir : v'.liveDir fs num = true :=
  liveDir_iff.mpr ⟨h.live_new, h.dirOk.isDir⟩

include hp in
theorem adds : Tree.Adds conv (v.tree fs) (v'.tree fs) p base num := by
  refine h.toCreated.adds hp (.inl ⟨h.liveDir, ?_⟩)
  simp only [tree, h.liveDir, if_true, h.dirEntries]
  rfl

include hv hp hn

theorem core : Core G v' := by
  have hadds := h.adds hp
  refine hv.of_created hp hn h.toCreated hadds (fun g hg => ?_) (fun _ => h.dirOk) (fun hreg => ?_)
    fun hd => ?_
  · obtain ⟨hself, hother⟩ := dirsIn_step G h.valid h.liveDir (not_liveDir_of_free h.free)
      fun y hy => hadds.isDir y hy
    rw [h.dirCount]
    by_cases hgn : g = fs.inoGroup num
    · subst hgn
      have hlt := usedDirsCount_lt hv h.valid h.free
      rw [if_pos rfl, hself, ← hv.dirCount _ hg, toNat_succ16 hlt]
    · rw [if_neg hgn, hother g hgn, hv.dirCount g hg]
  · exact (not_isReg_of_isDir h.dirOk.isDir hreg).elim
  · rw [h.dirOk.isDir] at hd
    cases hd

theorem dirLinks (hl : DirLinks fs v) (hroom : (v.inode p).linksCount.toNat < 2 ^ 16 - 1) :
    DirLinks fs v' := fun x hx => by
  have hadds := h.adds hp
  have hcan := hv.canAdd hp hn h.free
  have hnew : (v'.tree fs).isDir num = true := h.liveDir
  by_cases hxn : x = num
  · subst hxn
    have hzero : (v'.tree fs).subdirs conv x = 0 := by
      refine countP_eq_zero.mpr ?_
      rintro ⟨m, z⟩ hm
      simp only [decide_eq_true_eq]
      exact fun hnamed => hadds.named_ne hm hnamed.1 rfl
    rw [hzero, h.links]
    rfl
  · have hdir : v.liveDir fs x = true := (hadds.isDir x hxn).symm.trans hx
    rw [hadds.subdirs_eq hcan hxn, hnew]
    by_cases hxp : x = p
    · subst hxp
      rw [h.parentLinks, toNat_succ16 hroom, hl x hdir, if_pos ⟨rfl, rfl⟩, add_assoc]
    · rw [(h.frame x hxp hxn).inode, hl x hdir, if_neg fun hc => hxp hc.1, add_zero]

end CreatedDir

end

/-! ## One entry less -/

variable (hn : (v.tree fs).step p base = some num) (hnamed : conv.Named base)

namespace Removed

variable (h : Removed G v p base num v')
include h

include hp in
theorem liveDir_parent : v'.liveDir fs p = true := by
  refine liveDir_iff.mpr ⟨?_, h.parentOk.isDir⟩
  unfold live
  rw [h.parentLive]
  exact (liveDir_iff.mp hp).1

include hp in
theorem removes (hgone : v'.liveDir fs num = false) :
    Tree.Removes (v.tree fs) (v'.tree fs) p base num := by
  have hp' := h.liveDir_parent hp
  refine ⟨⟨fun y hyp hyn => (h.frame y hyp hyn).ents.symm, ?_, fun y hyn => ?_⟩, hgone,
    ents_of_not_liveDir hgone⟩
  · obtain ⟨es1, es2, type, h1, h2⟩ := h.entries
    refine ⟨es1.map Entry.pair, es2.map Entry.pair, ?_, ?_⟩
    · simp [tree, hp', h2]
    · simp [tree, hp, h1, Entry.pair]
  · by_cases hyp : y = p
    · subst hyp
      exact hp.trans hp'.symm
    · exact (h.frame y hyp hyn).liveDir.symm

theorem readable (hs : Sane fs v') : Readable G v' :=
  ⟨hs.tree.root, fun x hx => ⟨h.mapped x _ (logical_of_liveDir hx), hs.dirs x hx⟩,
    fun x hx hreg => ⟨h.mapped x _ (logical_of_live hx (holdsBlocks_of_isReg hreg)),
      hs.files x hx hreg⟩, hs.targets⟩

theorem live (hx : x ≠ num) : v'.live fs x = v.live fs x := by
  by_cases hxp : x = p
  · subst hxp
    unfold View.live
    rw [h.parentLive]
  · exact (h.frame x hxp hx).live

end Removed

/-- What is left of an inode that still has names. -/
structure StillNamed (fs : Fs) (v v' : View) (num : Nat) : Prop where
  file : (v.inode num).isDir = false
  inode : v'.inode num = { v.inode num with linksCount := (v.inode num).linksCount - 1 }
  links : (v'.inode num).linksCount.toNat + 1 = (v.inode num).linksCount.toNat
  pos : 0 < (v'.inode num).linksCount.toNat

/-- **Taking an entry out keeps names and inodes in order**, provided the inode it was for has
either another name or is free now and has none. -/
theorem Sane.of_removed (h : Sane fs v) (hp : v.liveDir fs p = true)
    (hr : Removed G v p base num v')
    (hrem : Tree.Removes (v.tree fs) (v'.tree fs) p base num)
    (hcan : (v.tree fs).CanRemove conv p base num) (hcount : DirCount fs v')
    (hnum : v'.live fs num = true → StillNamed fs v v' num)
    (hdead : v'.live fs num = false → ∀ y m, (m, num) ∉ (v'.tree fs).ents y) : Sane fs v' := by
  have hok' := hrem.ok h.tree hcan
  have hold : ∀ {x y : Nat} {name : List UInt8}, (name, y) ∈ (v'.tree fs).ents x →
      (name, y) ∈ (v.tree fs).ents x := fun hy =>
    ((hrem.mem_iff h.tree (hrem.ne_of_mem hy)).mp hy).1
  have hcounted : StillNamed fs v v' num → fs.firstIno ≤ num →
      (v.inode num).linksCount.toNat = (v'.tree fs).refs fs.inodes num + 1 := fun hstill hres => by
    have hrefs := hrem.refs_eq h.tree hcan (mem_inodes hp) (not_liveDir_of_file hstill.file)
    rwa [if_pos rfl, ← h.links num (h.targets p base num hcan.mem) hstill.file hres] at hrefs
  refine ⟨hr.inodeBits, hcount, fun x hx => ?_, fun x hx hreg => ?_, hok',
    fun x name y hy => ?_, fun x hx hres => ?_, fun x name y hname hy => ?_, fun x hx hres => ?_,
    fun x hx hd hres => ?_⟩
  · exact dirOk_of_apart hr.frame hr.parentOk h.dirs (ne_of_liveDir hx hrem.gone.1) hx
  · by_cases hxn : x = num
    · subst hxn
      have hstill := hnum hx
      have hlive := h.targets p base x hcan.mem
      rw [hstill.inode] at hreg ⊢
      exact h.files x hlive hreg
    · exact fileSize_of_apart hr.frame hr.parentOk h.files hxn hx hreg
  · by_cases hyn : y = num
    · subst hyn
      by_contra hlive
      exact hdead (Bool.not_eq_true _ ▸ hlive) x name hy
    · rw [hr.live hyn]
      exact h.targets x name y (hold hy)
  · have hxn : x ≠ num := by
      rintro rfl
      have := h.unreserved p base x hcan.named hcan.mem
      omega
    have hlive : v.live fs x = true := live_iff.mpr ⟨hx, h.reserved x hx hres⟩
    rw [← hr.live hxn] at hlive
    exact (live_iff.mp hlive).2
  · exact h.unreserved x name y hname (hold hy)
  · by_cases hxn : x = num
    · -- another name is left, and the directory it is in can be reached
      subst hxn
      have hstill := hnum hx
      have hrefs := hcounted hstill hres
      have hpos : (v'.tree fs).refs fs.inodes x ≠ 0 := by
        have := hstill.links
        have := hstill.pos
        omega
      obtain ⟨y, _, hy⟩ := exists_ne_zero_of_sum_ne_zero hpos
      obtain ⟨⟨m, z⟩, hm, hz⟩ := countP_pos_iff.mp (pos_of_ne_zero hy)
      obtain rfl : z = x := by simpa using hz
      have hfile' : (v'.tree fs).isDir z = false := hrem.gone.1
      exact Tree.Reach.entry (hok'.reach y (hok'.dir y (ne_nil_of_mem hm)))
        (hok'.named_of_file hm hfile') hm
    · rw [hr.live hxn] at hx
      exact hrem.reach h.tree hcan (h.reach x hx hres) hxn
  · by_cases hxn : x = num
    · subst hxn
      have hstill := hnum hx
      have hrefs := hcounted hstill hres
      have := hstill.links
      omega
    · have hf := frame_of_apart hr.frame hr.parentOk hxn hd
      rw [hf.live] at hx
      rw [hf.inode] at hd ⊢
      rw [h.links x hx hd hres, hrem.refs_eq h.tree hcan (mem_inodes hp)
        (not_liveDir_of_file hd), if_neg hxn, add_zero]

theorem dropLink_eq (hpos : 0 < ino.linksCount) :
    ino.dropLink = { ino with linksCount := ino.linksCount - 1 } := by
  unfold Inode.dropLink
  rw [if_pos hpos]

/-! ### A directory is removed -/

namespace RemovedDir

variable (h : RemovedDir G v p base num v')
include h

include hp in
theorem removes : Tree.Removes (v.tree fs) (v'.tree fs) p base num :=
  h.toRemoved.removes hp (not_liveDir_of_free h.iused)

include hn hnamed in
theorem canRemove : (v.tree fs).CanRemove conv p base num := by
  refine ⟨hnamed, Tree.mem_of_step hn, fun m z hm hnamed => ?_⟩
  simp only [tree, h.empty.1, if_true] at hm
  obtain ⟨e, he, hpair⟩ := mem_map.mp hm
  have hname : e.name = m := congrArg Prod.fst hpair
  rcases h.empty.2 e he with h46 | h46
  · exact hnamed.1 (hname.symm.trans h46)
  · exact hnamed.2 (hname.symm.trans h46)

include hv hp hn hnamed

theorem sane : Sane fs v' := by
  have hrem := h.removes hp
  have hcan := h.canRemove hn hnamed
  have hnumdir := h.empty.1
  have hdead : v'.live fs num = false := by
    unfold live
    rw [h.iused, Bool.and_false]
  refine hv.toSane.of_removed hp h.toRemoved hrem hcan (fun g hg => ?_)
    (fun hlive => absurd hlive (by rw [hdead]; decide)) fun _ y m hm => ?_
  · obtain ⟨hself, hother⟩ := dirsIn_step G (valid_of_liveDir hnumdir) hnumdir
      (not_liveDir_of_free h.iused) hrem.isDir
    rw [h.dirCount]
    by_cases hgn : g = fs.inoGroup num
    · subst hgn
      have hcount := hv.dirCount _ hg
      rw [if_pos rfl]
      exact toNat_pred16 (hcount.trans hself)
    · rw [if_neg hgn, hv.dirCount g hg]
      exact hother g hgn
  · have hyn := hrem.ne_of_mem hm
    obtain ⟨hold, hne⟩ := (hrem.mem_iff hv.tree hyn).mp hm
    exact hne (hv.tree.only_entry hnamed hcan.mem hcan.empty hnumdir hyn hold)

theorem core : Core G v' :=
  ⟨h.sane hv hp hn hnamed, h.world (holdsBlocks_of_isDir (liveDir_iff.mp h.empty.1).2)⟩

theorem dirLinks (hl : DirLinks fs v) : DirLinks fs v' := fun x hx => by
  have hrem := h.removes hp
  have hxn := ne_of_liveDir hx (not_liveDir_of_free h.iused)
  have hdir : v.liveDir fs x = true := (hrem.isDir x hxn).trans hx
  have hsub := hrem.subdirs_eq hv.tree (h.canRemove hn hnamed) hxn
  have hnumdir : (v.tree fs).isDir num = true := h.empty.1
  by_cases hxp : x = p
  · subst hxp
    have hlinks := hl x hdir
    have hpos : 0 < (v.inode x).linksCount := by
      rw [UInt16.lt_iff_toNat_lt, hlinks]
      exact Nat.lt_of_lt_of_le (by decide) (Nat.le_add_right 2 _)
    rw [if_pos ⟨rfl, hnumdir⟩] at hsub
    rw [h.parentLinks, dropLink_eq hpos]
    exact toNat_pred16 (by omega)
  · rw [if_neg fun hc => hxp hc.1] at hsub
    rw [(h.frame x hxp hxn).inode, hl x hdir, hsub, add_zero]

end RemovedDir

/-! ### A name of a file is removed -/

theorem Core.refs_pos (h : Core G v) {y : Nat} {name : List UInt8}
    (hmem : (name, x) ∈ (v.tree fs).ents y) : 0 < (v.tree fs).refs fs.inodes x := by
  have hy := h.tree.dir y (ne_nil_of_mem hmem)
  refine lt_of_lt_of_le ?_ (single_le_sum
    (f := fun y => ((v.tree fs).ents y).countP fun e => e.2 = x) (fun _ _ => Nat.zero_le _)
    (mem_inodes hy))
  exact countP_pos_iff.mpr ⟨(name, x), hmem, by simp⟩

namespace Unlinked

variable (h : Unlinked G v p base num v')
include h

theorem not_liveDir : v'.liveDir fs num = false := by
  by_cases hlinks : (v.inode num).dropLink.linksCount = 0
  · refine not_liveDir_of_free ?_
    rw [h.iused, hlinks]
    rfl
  · refine not_liveDir_of_file ?_
    rw [h.inode hlinks]
    exact h.file

include hp in
theorem removes :
    Tree.Removes (v.tree fs) (v'.tree fs) p base num := h.toRemoved.removes hp h.not_liveDir

theorem isDir_eq : (v.tree fs).isDir num = false :=
  not_liveDir_of_file h.file

include hn hnamed in
theorem canRemove : (v.tree fs).CanRemove conv p base num := by
  refine ⟨hnamed, Tree.mem_of_step hn, fun m z hm => ?_⟩
  rw [ents_of_not_liveDir h.isDir_eq] at hm
  cases hm

include hv hp hn hnamed

theorem sane : Sane fs v' := by
  have hrem := h.removes hp
  have hcan := h.canRemove hn hnamed
  have hlive := hv.targets p base num hcan.mem
  -- the link count is the number of names
  have hlinks := hv.links num hlive h.file (hv.unreserved p base num hnamed hcan.mem)
  have hrefs := hrem.refs_eq hv.tree hcan (mem_inodes hp) h.isDir_eq
  rw [if_pos rfl] at hrefs
  have hpos : 0 < (v.inode num).linksCount := by
    rw [UInt16.lt_iff_toNat_lt, hlinks]
    exact hv.refs_pos hcan.mem
  have hdrop := dropLink_eq hpos
  have hone : 0 < (v.inode num).linksCount.toNat := UInt16.lt_iff_toNat_lt.mp hpos
  have hdroplinks : (v.inode num).dropLink.linksCount.toNat =
      (v.inode num).linksCount.toNat - 1 := by
    rw [hdrop]
    exact toNat_pred16 (by omega)
  refine hv.toSane.of_removed hp h.toRemoved hrem hcan (fun g hg => ?_) (fun hl => ?_)
    fun hdead y m hm => ?_
  · rw [h.dirCount, hv.dirCount g hg]
    refine (dirsIn_congr (fun x _ => ?_) hg).symm
    by_cases hx : x = num
    · subst hx
      rw [h.not_liveDir]
      exact h.isDir_eq.symm
    · exact (hrem.isDir x hx).symm
  · have hused := (live_iff.mp hl).2
    rw [h.iused, decide_eq_true_eq] at hused
    have hino := h.inode hused
    refine ⟨h.file, by rw [hino, hdrop], ?_, ?_⟩
    · rw [hino, hdroplinks]
      exact Nat.sub_add_cancel hone
    · rw [hino]
      refine pos_of_ne_zero fun h0 => hused ?_
      exact UInt16.toNat.inj h0
  · have hzero : (v.inode num).dropLink.linksCount = 0 := by
      by_contra hne
      have : v'.live fs num = true := live_iff.mpr ⟨(live_iff.mp hlive).1, by
        rw [h.iused]
        exact decide_eq_true hne⟩
      rw [hdead] at this
      cases this
    have hnone : (v'.tree fs).refs fs.inodes num = 0 := by
      rw [hzero] at hdroplinks
      have h0 : (0 : UInt16).toNat = 0 := rfl
      omega
    have hy := hv.tree.dir y (ne_nil_of_mem ((hrem.mem_iff hv.tree (hrem.ne_of_mem hm)).mp hm).1)
    have hcountP := sum_eq_zero_iff.mp hnone y (mem_inodes hy)
    have := countP_eq_zero.mp hcountP _ hm
    simp at this

theorem dirLinks (hl : DirLinks fs v) : DirLinks fs v' := fun x hx => by
  have hrem := h.removes hp
  have hxn := ne_of_liveDir hx h.not_liveDir
  have hdir : v.liveDir fs x = true := (hrem.isDir x hxn).trans hx
  have hsub := hrem.subdirs_eq hv.tree (h.canRemove hn hnamed) hxn
  rw [h.isDir_eq, if_neg (by simp), add_zero] at hsub
  have hlinks := linksCount_of_apart h.frame h.parentOk h.parentLinks hxn
  rw [hlinks, hl x hdir, hsub]

end Unlinked

/-! ## What the calls keep -/

variable {path data : List UInt8} {ok : Bool}

namespace WriteOutcome

variable (h : WriteOutcome G v path data ok v')
include h

theorem core (hv : Core G v) : Core G v' := by
  cases h with
  | refused _ hv' _ => exact hv'.symm ▸ hv
  | undone _ _ _ _ _ hu => exact hu.aside.core hv
  | created ht hn _ hc => exact hc.core hv (hv.readable.target ht).dir hn
  | overwritten _ _ hw => exact (hw.aside hv).core hv

theorem keeps (hv : Core G v) (hp : Plain fs v) :
    Plain fs v' ∧ (DirLinks fs v → DirLinks fs v') := by
  cases h with
  | refused _ hv' _ => exact hv'.symm ▸ ⟨hp, id⟩
  | undone _ _ _ _ _ hu => exact ⟨hu.aside.plain hp, hu.aside.dirLinks⟩
  | created ht hn _ hc =>
    exact ⟨plain_of_apart hc.frame hc.parentOk hp fun _ _ => .inl hc.isReg,
      hc.dirLinks hv (hv.readable.target ht).dir hn⟩
  | overwritten _ _ hw => exact ⟨(hw.aside hv).plain hp, (hw.aside hv).dirLinks⟩

end WriteOutcome

namespace MkdirOutcome

theorem core (h : MkdirOutcome G v path ok v') (hv : Core G v) : Core G v' := by
  cases h with
  | refused _ hv' _ => exact hv'.symm ▸ hv
  | noBlock _ _ _ _ hu | undone _ _ _ _ _ _ hu => exact hu.aside.core hv
  | created _ ht hn _ _ hc => exact hc.core hv (hv.readable.target ht).dir hn

theorem keeps (h : MkdirOutcome G v path ok v') (hv : Core G v) (hp : Plain fs v) :
    Plain fs v' ∧ ((∀ p base, v.target fs path = some (p, base) →
      (v.inode p).linksCount.toNat < 2 ^ 16 - 1) → DirLinks fs v → DirLinks fs v') := by
  cases h with
  | refused _ hv' _ => exact hv'.symm ▸ ⟨hp, fun _ => id⟩
  | noBlock _ _ _ _ hu | undone _ _ _ _ _ _ hu =>
    exact ⟨hu.aside.plain hp, fun _ => hu.aside.dirLinks⟩
  | created _ ht hn _ _ hc =>
    exact ⟨plain_of_apart hc.frame hc.parentOk hp fun _ _ => .inr hc.dirOk.isDir,
      fun hroom hl => hc.dirLinks hv (hv.readable.target ht).dir hn hl (hroom _ _ ht)⟩

end MkdirOutcome

namespace RemoveOutcome

variable (h : RemoveOutcome G v path ok v')
include h

theorem core (hv : Core G v) (hp : Plain fs v) : Core G v' := by
  cases h with
  | refused _ hv' _ => exact hv'.symm ▸ hv
  | rmdir _ ht hn hnamed hr => exact hr.core hv (hv.readable.target ht).dir hn hnamed
  | unlink _ ht hn hnamed hr =>
    have hmem := Tree.mem_of_step hn
    refine ⟨hr.sane hv (hv.readable.target ht).dir hn hnamed, hr.world ?_⟩
    rcases hp _ (hv.targets _ _ _ hmem) (hv.unreserved _ _ _ hnamed hmem) with hreg | hdir
    · exact holdsBlocks_of_isReg hreg
    · exact holdsBlocks_of_isDir hdir

theorem readable (hv : Core G v) : Readable G v' := by
  cases h with
  | refused _ hv' _ => exact hv'.symm ▸ hv.readable
  | rmdir _ ht hn hnamed hr | unlink _ ht hn hnamed hr =>
    exact hr.toRemoved.readable (hr.sane hv (hv.readable.target ht).dir hn hnamed)

theorem keeps (hv : Core G v) (hp : Plain fs v) :
    Plain fs v' ∧ (DirLinks fs v → DirLinks fs v') := by
  cases h with
  | refused _ hv' _ => exact hv'.symm ▸ ⟨hp, id⟩
  | rmdir _ ht hn hnamed hr =>
    refine ⟨plain_of_apart hr.frame hr.parentOk hp fun hlive => ?_,
      hr.dirLinks hv (hv.readable.target ht).dir hn hnamed⟩
    have := (live_iff.mp hlive).2
    rw [hr.iused] at this
    cases this
  | unlink _ ht hn hnamed hr =>
    refine ⟨plain_of_apart hr.frame hr.parentOk hp fun hlive hres => ?_,
      hr.dirLinks hv (hv.readable.target ht).dir hn hnamed⟩
    have hused := (live_iff.mp hlive).2
    rw [hr.iused, decide_eq_true_eq] at hused
    rw [hr.inode hused]
    exact hp _ (hv.targets _ _ _ (Tree.mem_of_step hn)) hres

end RemoveOutcome

end JuampiOs.Ext2
