import JuampiOs.Ext2.Preserve

/-!
# What the calls do to paths

A call adds one entry to the tree or takes one out, so it moves only the paths that follow this
entry (`View.Through`). Everything else is found where it was, with the contents it had.
-/

namespace JuampiOs.Ext2

open Lib Option View

variable {fs : Fs} {G : Layout fs} {v v' : View} {p num : Nat} {path base data : List UInt8}
  {ok : Bool}

/-- Path `q` passes through what `path` names: it takes the same entry of the same directory. -/
def View.Through (fs : Fs) (v : View) (path q : List UInt8) : Prop :=
  ∃ p base, v.target fs path = some (p, base) ∧
    (v.tree fs).Follows p base EXT2_ROOT_INO (comps q)

theorem View.through_iff (ht : v.target fs path = some (p, base)) (q : List UInt8) :
    v.Through fs path q ↔ (v.tree fs).Follows p base EXT2_ROOT_INO (comps q) := by
  constructor
  · rintro ⟨p', base', ht', hf⟩
    obtain ⟨rfl, rfl⟩ := Prod.mk.inj (some.inj (ht.symm.trans ht'))
    exact hf
  · exact fun hf => ⟨p, base, ht, hf⟩

theorem find_of_tree_eq (h : v'.tree fs = v.tree fs) (q : List UInt8) :
    v'.find fs q = v.find fs q := by
  unfold find
  rw [h]

theorem Core.root_live (h : Core G v) : v.live fs EXT2_ROOT_INO = true :=
  (liveDir_iff.mp h.tree.root).1

variable {q : List UInt8} {x : Nat}

theorem not_through (ht : v.target fs path = some (p, base))
    (hn : (v.tree fs).step p base = none) (hq : v.find fs q = some x) :
    ¬ v.Through fs path q := by
  rw [through_iff ht]
  exact Tree.not_follows_of_walk hn _ _ _ hq

/-! ## Creating -/

theorem Core.find_created (h : Core G v) (ht : v.target fs path = some (p, base))
    (hn : (v.tree fs).step p base = none) (hfree : v.iused num = false)
    (hadds : Tree.Adds conv (v.tree fs) (v'.tree fs) p base num) :
    (∀ q, ¬ v.Through fs path q → v'.find fs q = v.find fs q) ∧ v'.find fs path = some num := by
  have htarget := h.readable.target ht
  have hcan := h.canAdd htarget.dir hn hfree
  have hroot : EXT2_ROOT_INO ≠ num := ne_of_free h.root_live hfree
  have hkeep : ∀ names, ¬ (v.tree fs).Follows p base EXT2_ROOT_INO names →
      (v'.tree fs).walk EXT2_ROOT_INO names = (v.tree fs).walk EXT2_ROOT_INO names :=
    fun names hf => hadds.walk_eq hcan hroot hf
  refine ⟨fun q hq => hkeep _ ((through_iff ht q).not.mp hq), ?_⟩
  obtain ⟨names, hcomps, hwalk⟩ := htarget.walk
  unfold find
  rw [hcomps, Tree.walk_append, hkeep names (Tree.not_follows_of_walk hn names _ _ hwalk), hwalk]
  simp only [bind_some, Tree.walk, hadds.step_new hcan]

/-! ## Removing -/

theorem Core.find_removed (h : Core G v) (ht : v.target fs path = some (p, base))
    (hrem : Tree.Removes (v.tree fs) (v'.tree fs) p base num)
    (hcan : (v.tree fs).CanRemove conv p base num) :
    (∀ q, ¬ v.Through fs path q → v'.find fs q = v.find fs q) ∧
      (∀ q, v.Through fs path q → v'.find fs q = none) ∧ v.Through fs path path := by
  have hroot : EXT2_ROOT_INO ≠ num := fun heq =>
    h.tree.unrooted p base hcan.named (show (base, EXT2_ROOT_INO) ∈ _ from heq ▸ hcan.mem)
  refine ⟨fun q hq => hrem.walk_eq h.tree hcan hroot ((through_iff ht q).not.mp hq),
    fun q hq => hrem.walk_follows h.tree hcan _ _ hroot ((through_iff ht q).mp hq), ?_⟩
  obtain ⟨names, hcomps, hwalk⟩ := (h.readable.target ht).walk
  rw [through_iff ht, hcomps]
  exact Tree.follows_append names _ hwalk

/-! ## Contents -/

/-- What can be read of inode `x` is what could be read before. -/
structure SameFile (fs : Fs) (v v' : View) (x : Nat) : Prop where
  isReg : (v'.inode x).isReg = (v.inode x).isReg
  isDir : (v'.inode x).isDir = (v.inode x).isDir
  size : (v.inode x).isReg = true → inodeFileSize fs (v'.inode x) = inodeFileSize fs (v.inode x)
  bytes : (v.inode x).isReg = true → v'.bytes fs x = v.bytes fs x

/-- The entries of inode `x` are the ones it had. -/
def SameList (fs : Fs) (v v' : View) (x : Nat) : Prop :=
  (v.inode x).isDir = true → dirEntries fs v'.data (v'.inode x) = dirEntries fs v.data (v.inode x)

theorem Frame.sameFile (h : Frame fs v v' x) (hx : v.live fs x = true) : SameFile fs v v' x := by
  refine ⟨by rw [h.inode], by rw [h.inode], fun _ => by rw [h.inode], fun hreg => ?_⟩
  exact h.bytes hx (holdsBlocks_of_isReg hreg)

theorem Frame.sameList (h : Frame fs v v' x) (hx : v.live fs x = true) :
    SameList fs v v' x := fun hdir => h.dirEntries_eq hx (holdsBlocks_of_isDir hdir)

theorem sameFile_of_isDir (h : (v.inode x).isDir = true) (h' : (v'.inode x).isDir = true) :
    SameFile fs v v' x := by
  have hreg := isDir_not_isReg h
  refine ⟨by rw [hreg, isDir_not_isReg h'], by rw [h, h'], fun hr => ?_, fun hr => ?_⟩
  · rw [hreg] at hr
    cases hr
  · rw [hreg] at hr
    cases hr

theorem SameFile.readPath (hq : v'.find fs q = v.find fs q)
    (h : ∀ x, v.find fs q = some x → SameFile fs v v' x) :
    v'.readPath fs q = v.readPath fs q := by
  unfold View.readPath
  rw [hq]
  refine bind_congr fun x hx => ?_
  have hs := h x hx
  rw [hs.isReg]
  by_cases hreg : (v.inode x).isReg = true
  · rw [if_pos hreg, if_pos hreg, hs.bytes hreg]
  · rw [if_neg hreg, if_neg hreg]

theorem SameList.listPath (hq : v'.find fs q = v.find fs q)
    (h : ∀ x, v.find fs q = some x → SameFile fs v v' x ∧ SameList fs v v' x) :
    v'.listPath fs q = v.listPath fs q := by
  unfold View.listPath
  rw [hq]
  refine bind_congr fun x hx => ?_
  obtain ⟨hs, hl⟩ := h x hx
  rw [hs.isDir]
  by_cases hdir : (v.inode x).isDir = true
  · rw [if_pos hdir, if_pos hdir]
    exact congrArg some (hl hdir)
  · rw [if_neg hdir, if_neg hdir]

theorem Created.sameFile (h : Created G v p base num v') (hp : v.liveDir fs p = true)
    (hx : v.live fs x = true) : SameFile fs v v' x := by
  have hxn : x ≠ num := ne_of_free hx h.free
  by_cases hxp : x = p
  · subst hxp
    exact sameFile_of_isDir (liveDir_iff.mp hp).2 h.parentOk.isDir
  · exact (h.frame x hxp hxn).sameFile hx

theorem Created.sameList (h : Created G v p base num v') (hx : v.live fs x = true)
    (hxp : x ≠ p) : SameList fs v v' x := by
  have hxn : x ≠ num := ne_of_free hx h.free
  exact (h.frame x hxp hxn).sameList hx

theorem Undone.sameFile {lost : Nat → Prop} (h : Undone G v num lost v')
    (hx : v.live fs x = true) : SameFile fs v v' x :=
  (h.frame x (ne_of_free hx h.free)).sameFile hx

/-! ## Whole calls -/

/-- `write_file_impl` gets as far as the data: the path names a regular file, which is then
truncated, or it names nothing and an inode and a place in the directory are to be had. -/
def View.Rewrites (fs : Fs) (v : View) (path : List UInt8) : Prop :=
  ∃ p base, v.target fs path = some (p, base) ∧
    ((∃ num, (v.tree fs).step p base = some num ∧ (v.inode num).isReg = true) ∨
      ((v.tree fs).step p base = none ∧ (∃ x, fs.ValidIno x ∧ v.iused x = false) ∧
        ¬ NoRoom fs v (v.inode p) base))

namespace WriteOutcome

/-- **After a write that succeeds** the path names a file with the data, and every path that was
found is found where it was; what else it names is as it was. -/
theorem written (h : WriteOutcome G v path data true v') (hv : Core G v)
    (hlen : data.length < 2 ^ 32) :
    ∃ num, v'.find fs path = some num ∧ (v'.inode num).isReg = true ∧
      inodeFileSize fs (v'.inode num) = data.length ∧ v'.bytes fs num = data ∧
      ∀ q x, v.find fs q = some x →
        v'.find fs q = some x ∧ (x ≠ num → SameFile fs v v' x) := by
  cases h with
  | refused hok _ _ => cases hok
  | undone hok _ _ _ _ _ => cases hok
  | @created p num base ht hn _ hc =>
    have hp := (hv.readable.target ht).dir
    have hsize := hc.fileSize
    rw [Nat.mod_eq_of_lt hlen] at hsize
    obtain ⟨hkeep, hnew⟩ := hv.find_created ht hn hc.free (hc.adds hp)
    refine ⟨num, hnew, hc.isReg, hsize, ?_, fun q x hq => ⟨?_, fun _ => ?_⟩⟩
    · unfold bytes
      rw [hsize]
      exact hc.read rfl hlen
    · rw [hkeep q (not_through ht hn hq)]
      exact hq
    · exact hc.toCreated.sameFile hp (hv.readable.live_find hq)
  | @overwritten p num base ht hn hw =>
    have hsize := hw.fileSize
    rw [Nat.mod_eq_of_lt hlen] at hsize
    have hfind := find_of_tree_eq (hw.aside hv).tree_eq
    refine ⟨num, ?_, hw.isReg, hsize, ?_, fun q x hq => ⟨?_, fun hne => ?_⟩⟩
    · rw [hfind, (hv.readable.target ht).find]
      exact hn
    · unfold bytes
      rw [hsize]
      exact hw.read rfl hlen
    · rw [hfind]
      exact hq
    · exact (hw.frame x hne).sameFile (hv.readable.live_find hq)

/-- **After a write that fails** every path that does not pass through the written one leads where
it led, and every file but the one it named is as it was. -/
theorem failed (h : WriteOutcome G v path data ok v') (hv : Core G v) :
    (∀ q, ¬ v.Through fs path q → v'.find fs q = v.find fs q) ∧
      ∀ q x, v.find fs q = some x → v'.find fs q = some x ∧
        (v.find fs path ≠ some x → SameFile fs v v' x) := by
  cases h with
  | refused _ hv' _ =>
    subst hv'
    exact ⟨fun _ _ => rfl, fun q x hq => ⟨hq, fun _ =>
      (Frame.refl fs v' x).sameFile (hv.readable.live_find hq)⟩⟩
  | undone _ _ _ _ _ hu =>
    have hfind := find_of_tree_eq hu.aside.tree_eq
    refine ⟨fun q _ => hfind q, fun q x hq => ⟨?_, fun _ => hu.sameFile (hv.readable.live_find hq)⟩⟩
    rw [hfind]
    exact hq
  | created ht hn _ hc =>
    have hp := (hv.readable.target ht).dir
    obtain ⟨hkeep, _⟩ := hv.find_created ht hn hc.free (hc.adds hp)
    refine ⟨hkeep, fun q x hq => ⟨?_, fun _ => ?_⟩⟩
    · rw [hkeep q (not_through ht hn hq)]
      exact hq
    · exact hc.toCreated.sameFile hp (hv.readable.live_find hq)
  | overwritten ht hn hw =>
    have hfind := find_of_tree_eq (hw.aside hv).tree_eq
    refine ⟨fun q _ => hfind q, fun q x hq => ⟨?_, fun hne => ?_⟩⟩
    · rw [hfind]
      exact hq
    · refine (hw.frame x ?_).sameFile (hv.readable.live_find hq)
      rintro rfl
      rw [(hv.readable.target ht).find] at hne
      exact hne hn

/-- A call that does not get as far as the data changes nothing that can be seen. -/
theorem unchanged (h : WriteOutcome G v path data ok v') (hv : Core G v)
    (hre : ¬ v.Rewrites fs path) (q : List UInt8) :
    v'.find fs q = v.find fs q ∧ ∀ x, v.find fs q = some x → SameFile fs v v' x := by
  cases h with
  | refused _ hv' _ =>
    subst hv'
    exact ⟨rfl, fun x hq => (Frame.refl fs v' x).sameFile (hv.readable.live_find hq)⟩
  | undone _ _ _ _ _ hu =>
    exact ⟨find_of_tree_eq hu.aside.tree_eq q, fun x hq => hu.sameFile (hv.readable.live_find hq)⟩
  | created ht hn hroom hc =>
    exact absurd ⟨_, _, ht, Or.inr ⟨hn, ⟨_, hc.valid, hc.free⟩, hroom⟩⟩ hre
  | overwritten ht hn hw => exact absurd ⟨_, _, ht, Or.inl ⟨_, hn, hw.reg⟩⟩ hre

end WriteOutcome

/-- **After `mkdir` succeeds** the path names an empty directory, and nothing else has changed but
for the entry in its parent. -/
theorem MkdirOutcome.made (h : MkdirOutcome G v path true v') (hv : Core G v) :
    ∃ p base num, v.target fs path = some (p, base) ∧ v'.find fs path = some num ∧
      (v'.inode num).isDir = true ∧
      dirEntries fs v'.data (v'.inode num) =
        [⟨[46], num, typeByte fs FT_DIR⟩, ⟨[46, 46], p, typeByte fs FT_DIR⟩] ∧
      (∀ q, ¬ v.Through fs path q → v'.find fs q = v.find fs q) ∧
      (∀ q x, v.find fs q = some x → SameFile fs v v' x ∧ (x ≠ p → SameList fs v v' x)) ∧
      (v.inode p).isDir = true ∧ (v'.inode p).isDir = true ∧
      ∃ es₁ es₂ type, dirEntries fs v.data (v.inode p) = es₁ ++ es₂ ∧
        dirEntries fs v'.data (v'.inode p) = es₁ ++ ⟨base, num, type⟩ :: es₂ := by
  cases h with
  | refused hok | noBlock hok | undone hok => cases hok
  | @created p num _ base _ ht hn _ _ hc =>
    have hp := (hv.readable.target ht).dir
    obtain ⟨hkeep, hnew⟩ := hv.find_created ht hn hc.free (hc.adds hp)
    refine ⟨p, base, num, ht, hnew, hc.dirOk.isDir, hc.dirEntries, hkeep, fun q x hq => ?_,
      (liveDir_iff.mp hp).2, hc.parentOk.isDir, hc.entries⟩
    have hx := hv.readable.live_find hq
    exact ⟨hc.toCreated.sameFile hp hx, fun hxp => hc.toCreated.sameList hx hxp⟩

/-! ### Removing -/

theorem Unlinked.sameFile (h : Unlinked G v p base num v') (hlive : v.live fs num = true)
    (hlinks : (v.inode num).dropLink.linksCount ≠ 0) : SameFile fs v v' num := by
  have hino := h.inode hlinks
  refine ⟨by rw [hino]; rfl, by rw [hino]; rfl, fun _ => by rw [hino]; rfl, fun hreg => ?_⟩
  -- as far as its blocks go the inode is left alone
  have hframe : Frame fs v { v' with iused := v.iused, inode := v.inode } num :=
    ⟨rfl, rfl, h.data⟩
  have hbytes := hframe.bytes hlive (holdsBlocks_of_isReg hreg)
  unfold bytes at hbytes ⊢
  rw [hino]
  exact hbytes

/-- **After `remove` succeeds** no path through the removed one leads anywhere, and nothing else
has changed but for the entry in the parent. -/
theorem RemoveOutcome.gone (h : RemoveOutcome G v path true v') (hv : Core G v) :
    ∃ p base num, v.target fs path = some (p, base) ∧ v.find fs path = some num ∧
      v.Through fs path path ∧ (∀ q, v.Through fs path q → v'.find fs q = none) ∧
      (∀ q, ¬ v.Through fs path q → v'.find fs q = v.find fs q) ∧
      (∀ q x, ¬ v.Through fs path q → v.find fs q = some x →
        SameFile fs v v' x ∧ (x ≠ p → SameList fs v v' x)) ∧
      (v.inode p).isDir = true ∧ (v'.inode p).isDir = true ∧
      ∃ es₁ es₂ type, dirEntries fs v.data (v.inode p) = es₁ ++ ⟨base, num, type⟩ :: es₂ ∧
        dirEntries fs v'.data (v'.inode p) = es₁ ++ es₂ := by
  have hread := h.readable hv
  -- where the removed inode is still in use it keeps what it held
  obtain ⟨p, base, num, ht, hn, hr, hrem, hcan, hnum⟩ : ∃ p base num,
      v.target fs path = some (p, base) ∧ (v.tree fs).step p base = some num ∧
      Removed G v p base num v' ∧ Tree.Removes (v.tree fs) (v'.tree fs) p base num ∧
      (v.tree fs).CanRemove conv p base num ∧ (v'.live fs num = true → v.live fs num = true →
        SameFile fs v v' num ∧ SameList fs v v' num) := by
    cases h with
    | refused hok _ _ => cases hok
    | @rmdir p num base _ ht hn hnamed hr =>
      refine ⟨p, base, num, ht, hn, hr.toRemoved, hr.removes (hv.readable.target ht).dir,
        hr.canRemove hn hnamed, fun hlive => ?_⟩
      rw [live_iff, hr.iused] at hlive
      cases hlive.2
    | @unlink p num base _ ht hn hnamed hr =>
      refine ⟨p, base, num, ht, hn, hr.toRemoved, hr.removes (hv.readable.target ht).dir,
        hr.canRemove hn hnamed, fun hused hlive => ?_⟩
      rw [live_iff, hr.iused, decide_eq_true_eq] at hused
      refine ⟨hr.sameFile hlive hused.2, fun hdir => ?_⟩
      rw [hr.file] at hdir
      cases hdir
  have htarget := hv.readable.target ht
  have hp := htarget.dir
  obtain ⟨hkeep, hgone, hself⟩ := hv.find_removed ht hrem hcan
  refine ⟨p, base, num, ht, by rw [htarget.find]; exact hn, hself, hgone, hkeep,
    fun q x hq hx => ?_, (liveDir_iff.mp hp).2, hr.parentOk.isDir, hr.entries⟩
  have hlive := hv.readable.live_find hx
  by_cases hxn : x = num
  · subst hxn
    obtain ⟨hfile, hlist⟩ := hnum (hread.live_find ((hkeep q hq).trans hx)) hlive
    exact ⟨hfile, fun _ => hlist⟩
  by_cases hxp : x = p
  · subst hxp
    exact ⟨sameFile_of_isDir (liveDir_iff.mp hp).2 hr.parentOk.isDir, fun hne => absurd rfl hne⟩
  · exact ⟨(hr.frame x hxp hxn).sameFile hlive, fun _ => (hr.frame x hxp hxn).sameList hlive⟩

end JuampiOs.Ext2
