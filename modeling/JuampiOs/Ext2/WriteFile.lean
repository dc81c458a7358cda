import JuampiOs.Ext2.Calls

/-!
# `write_file_impl`

The ways a call can end (`WriteOutcome`): refused with nothing changed, a new file, an
overwritten one, or a creation that was undone because the directory could not take the entry.
-/

namespace JuampiOs.Ext2

open Lib Function Option Spec BlocksKept

variable {fs : Fs} {G : Layout fs} {v v' : View} {I : Nat → Option Inode}

/-! ## Outcomes -/

/-- The created inode is a regular file, filled with the data when `ok`. -/
structure CreatedFile (G : Layout fs) (v : View) (p : Nat) (base : List UInt8) (num : Nat)
    (data : List UInt8) (ok : Bool) (v' : View) : Prop extends Created G v p base num v' where
  parentLinks : (v'.inode p).linksCount = (v.inode p).linksCount
  dirCount : ∀ g, (v'.gd g).usedDirsCount = (v.gd g).usedDirsCount
  inode : ∃ block blocks, v'.inode num = { Inode.zero with
    mode := S_IFREG ||| 0o644, linksCount := 1, block := block, blocks := blocks,
    size := UInt32.ofNat data.length }
  read : ok = true → data.length < 2 ^ 32 →
    fileBytes fs v'.data (v'.inode num) data.length = data

/-- Regular file `num` was truncated and filled again, with all of the data when `ok`. -/
structure Overwritten (G : Layout fs) (v : View) (num : Nat) (data : List UInt8) (ok : Bool)
    (v' : View) : Prop where
  reg : (v.inode num).isReg = true
  world : World G (logical fs v') v'
  leaked : ∀ b, Leaked G (logical fs v') v' b → Leaked G (logical fs v) v b
  kept : InodesKept v v'
  frame : ∀ y, y ≠ num → Frame fs v v' y
  inode : ∃ block blocks, v'.inode num = { v.inode num with
    block := block, blocks := blocks, size := UInt32.ofNat data.length, dirAcl := 0 }
  read : ok = true → data.length < 2 ^ 32 →
    fileBytes fs v'.data (v'.inode num) data.length = data

/-- Why a call is refused before anything is changed. -/
inductive Refused (fs : Fs) (v : View) (path : List UInt8) : Prop where
  /-- there is no directory to look in -/
  | path (h : v.target fs path = none)
  /-- what is there is not a regular file -/
  | notReg {p num : Nat} {base : List UInt8} (ht : v.target fs path = some (p, base))
      (hn : (v.tree fs).step p base = some num) (h : (v.inode num).isReg = false)
  /-- there is no free inode -/
  | noInode {p : Nat} {base : List UInt8} (ht : v.target fs path = some (p, base))
      (hn : (v.tree fs).step p base = none) (h : ∀ x, fs.ValidIno x → v.iused x = true)

/-- How `write_file_impl` can end. -/
inductive WriteOutcome (G : Layout fs) (v : View) (path data : List UInt8) (ok : Bool)
    (v' : View) : Prop where
  | refused (hok : ok = false) (hv : v' = v) (why : Refused fs v path)
  | undone {p num : Nat} {base : List UInt8} {lost : Nat → Prop} (hok : ok = false)
      (ht : v.target fs path = some (p, base)) (hn : (v.tree fs).step p base = none)
      (hfull : DirFull fs v.data (v.inode p) base)
      (hlost : ((∀ b, ¬ lost b) ∧ ∀ b, ¬ v.Free fs b) ∨ ((∃ b, lost b) ∧ (∃ b, v.Free fs b) ∧
        GrowFails fs v (v.inode p) (dirBlocks fs (v.inode p))))
      (h : Undone G v num lost v')
  | created {p num : Nat} {base : List UInt8} (ht : v.target fs path = some (p, base))
      (hn : (v.tree fs).step p base = none)
      (hroom : ¬ NoRoom fs v (v.inode p) base)
      (h : CreatedFile G v p base num data ok v')
  | overwritten {p num : Nat} {base : List UInt8} (ht : v.target fs path = some (p, base))
      (hn : (v.tree fs).step p base = some num) (h : Overwritten G v num data ok v')

/-! ## Overwriting -/

/-- No logical block is below pointer 14, so none is left after truncation. -/
theorem fileBlk_cleared (data : Nat → Buf) (ino : Inode) (i : Nat) :
    fileBlk fs data ino.cleared i = 0 := by
  unfold fileBlk
  cases hi : fileSlot fs i with
  | none => rfl
  | some σ =>
    show walkPtr data (ino.cleared.ptr σ.1) σ.2 = 0
    rw [Inode.ptr_cleared, if_pos (fileSlot_leaf hi).1, walkPtr_zero]

theorem overwrite_spec (h : Core G v) {num : Nat} (hlive : v.live fs num = true)
    (hreg : (v.inode num).isReg = true) (data : List UInt8) :
    G.Spec (do
      let ino ← freeAllBlocks fs (v.inode num)
      fillFile fs num { ino with size := 0, dirAcl := 0 } data) v
      fun ok v' => Overwritten G v num data ok v' := by
  have hI : logical fs v num = some (v.inode num) :=
    logical_of_live hlive (holdsBlocks_of_isReg hreg)
  refine Exact.seq (freeAllBlocks_exact (h.world.blocks.mapped hI)) ?_
  have hfrees : OnlyFrees v (v.freeMany fs (freeList fs v.data (v.inode num))) :=
    onlyFrees_freeMany _ v
  obtain ⟨hworld, hleaked⟩ := h.world.truncate hI
  generalize v.freeMany fs (freeList fs v.data (v.inode num)) = v1 at hfrees hworld hleaked ⊢
  have hptr : ({ (v.inode num).cleared with size := 0, dirAcl := 0 } : Inode).ptr =
      (v.inode num).cleared.ptr := rfl
  have hat : ∀ y σ c, At fs (update (logical fs v) num _) v1.data y σ c ↔
      At fs (update (logical fs v) num _) v1.data y σ c := at_ptr hptr v1.data
  have hworld1 := hworld.of_at (refl v1) fun {y σ c} hc => (hat y σ c).mp hc
  have hframe1 : ∀ y, Frame fs v v1 y := fun y => hfrees.frame y
  refine weaken (fillFile_spec hworld1 (update_self ..) (live_iff.mp hlive).1
    (fun i => fileBlk_cleared v1.data (v.inode num) i) data) ?_
  rintro ok v2 ⟨ino', block, blocks, hino', hre, hread⟩
  have hnum : v2.inode num = ino' := by rw [hre.inode, update_self]
  have hframe : ∀ y, y ≠ num → Frame fs v v2 y := fun y hy =>
    (hframe1 y).trans (hre.frameAt hy (by
      rw [(hframe1 y).logical, update_of_ne hy]))
  have hlive2 : v2.live fs num = v.live fs num := View.live_congr (by
    rw [hre.kept.iused, hfrees.kept.iused])
  have hlog : logical fs v2 = update (logical fs v) num (some ino') :=
    eq_update_iff.mpr ⟨logical_eq_some (hlive2.trans hlive) hnum
      (hino' ▸ holdsBlocks_of_isReg hreg), fun y hy => (hframe y hy).logical⟩
  have hworld2 := hre.world
  have hleaked2 := hre.leaked
  rw [update_idem, ← hlog] at hworld2 hleaked2
  refine ⟨hreg, hworld2, fun b hb => ?_, hfrees.kept.trans hre.kept, hframe,
    ⟨block, blocks, ?_⟩, fun hok hlen => ?_⟩
  · exact (hleaked b).mp ((Leaked.congr (refl v1) hat b).mp (hleaked2 b hb))
  · rw [hnum, hino']
    rfl
  · rw [hnum]
    exact hread hok hlen

/-! ## Creating -/

/-- The file `write_file_impl` creates, before it has blocks. -/
def newFile : Inode := { Inode.zero with mode := S_IFREG ||| 0o644, linksCount := 1 }

theorem newFile_isReg : newFile.isReg = true := by decide

theorem newFile_ptr (r : Nat) : newFile.ptr r = 0 := ptr_zero r

theorem createFile_spec (h : Core G v) {path base : List UInt8} {p num : Nat}
    (ht : v.target fs path = some (p, base)) (hn : (v.tree fs).step p base = none)
    (hvalid : fs.ValidIno num) (hfree : v.iused num = false) (data : List UInt8) :
    G.Spec (do
      let (ok, _) ← dirAdd fs p (v.inode p) base num FT_REG
      if !ok then
        freeInode fs num false
        return false
      fillFile fs num newFile data) (v.useInode fs num false)
      fun ok v' => WriteOutcome G v path data ok v' := by
  have htarget := h.readable.target ht
  have hdir := htarget.dir
  have hlen := htarget.length
  have hI := logical_of_liveDir hdir
  have hpn : p ≠ num := ne_of_free (liveDir_iff.mp hdir).1 hfree
  obtain ⟨hworld1, hleak1⟩ := h.world_useInode num false
  have hframe1 : ∀ y, y ≠ num → Frame fs v (v.useInode fs num false) y := fun y hy =>
    frame_useInode hy
  refine seq (dirAdd_spec (v := v.useInode fs num false)
    hworld1 hI rfl (valid_of_liveDir hdir) (h.dirs p hdir).toDirTiled (by omega)
    (hvalid.lt G) hvalid.ne_zero) ?_
  rintro ⟨ok, dir'⟩ w (⟨hok, hroom, _, hadded⟩ | ⟨hok, _, hfull, hlost⟩)
  swap
  · -- the directory cannot take the entry
    subst hok
    refine Exact.seq (freeInode_exact hvalid false) (ret ?_)
    rcases hlost with ⟨rfl, hnone⟩ | ⟨blk, hblk, rfl, hgrow⟩
    · have hundone : Undone G v num (fun _ => False) _ := undone_of_unuse h hvalid hfree hworld1
        (fun b => by rw [hleak1]; simp) (InodesKept.refl _) hframe1
      exact WriteOutcome.undone rfl ht hn hfull (Or.inl ⟨fun _ => id, hnone⟩) hundone
    have hnotown := hworld1.not_owned hblk
    have hlost : ∀ b, Leaked G (logical fs v) ((v.useInode fs num false).fresh fs blk Buf.zero) b ↔
        Leaked G (logical fs v) v b ∨ b = blk := fun b => by
      rw [hworld1.leaked_fresh hblk, hleak1]
    have hundone : Undone G v num (fun b => b = blk) _ := undone_of_unuse h hvalid hfree
      (hworld1.fresh hblk Buf.zero) hlost (InodesKept.fresh fs _ blk Buf.zero)
      fun y hy => (hframe1 y hy).trans (frame_fresh (hframe1 y hy).logical hnotown)
    refine WriteOutcome.undone rfl ht hn hfull (Or.inr ⟨?_, ⟨blk, hblk⟩, hgrow⟩) hundone
    exact ⟨blk, rfl⟩
  subst hok
  obtain ⟨es1, es2, hes, hstep⟩ := hadded ((h.dirs p hdir).firstShort G)
  obtain ⟨block, blocks, size, hshape⟩ := hstep.shape
  simp only at hshape hstep
  have hinode2 : w.inode = update v.inode p dir' := hstep.inode
  have hiused2 : w.iused = update v.iused num true := hstep.kept.iused
  have hlog2 : ∀ y, y ≠ p → y ≠ num → Frame fs v w y := fun y hyp hyn =>
    (hframe1 y hyn).trans (hstep.frameAt hyp (hframe1 y hyn).logical)
  have hwp : w.inode p = dir' := by rw [hinode2, update_self]
  have hlive2 : w.live fs p = true :=
    (View.live_congr (by rw [hiused2, update_of_ne hpn])).trans (liveDir_iff.mp hdir).1
  have hblocks2 : dir'.holdsBlocks fs = true := holdsBlocks_of_isDir hstep.tiled.isDir
  -- the new inode joins without a block
  have hnone : update (logical fs v) p (some dir') num = none := by
    rw [update_of_ne (Ne.symm hpn)]
    exact logical_of_not_live (by unfold View.live; simp [hfree])
  have hat := fun y σ c => (at_of_no_ptr newFile_ptr hnone w.data y σ c : At fs _ _ y σ c ↔ _)
  have hworld2 := hstep.world.of_at (refl w) fun {y σ c} hc => (hat y σ c).mp hc
  refine weaken (fillFile_spec hworld2 (update_self ..) hvalid (fun i => ?_) data) ?_
  · unfold fileBlk
    cases fileSlot fs i with
    | none => rfl
    | some σ =>
      show walkPtr w.data (newFile.ptr σ.1) σ.2 = 0
      rw [newFile_ptr, walkPtr_zero]
  rintro ok v3 ⟨ino', block', blocks', hino', hre, hread⟩
  have hI2 : ∀ y, y ≠ num → logical fs w y =
      update (update (logical fs v) p (some dir')) num (some newFile) y :=
    fun y hyn => by
      rw [update_of_ne hyn]
      by_cases hyp : y = p
      · subst hyp
        rw [update_self, logical_eq_some hlive2 hwp hblocks2]
      · rw [update_of_ne hyp, (hlog2 y hyp hyn).logical]
  have hframe3 : ∀ y, y ≠ num → Frame fs w v3 y := fun y hyn => hre.frameAt hyn (hI2 y hyn)
  have hnum : v3.inode num = ino' := by rw [hre.inode, update_self]
  have hpino : v3.inode p = dir' := by
    rw [(hframe3 p hpn).inode, hinode2, update_self]
  have hiused : v3.iused = update v.iused num true := hre.kept.iused.trans hiused2
  have hlog : logical fs v3 =
      update (update (logical fs v) p (some dir')) num (some ino') := by
    refine eq_update_iff.mpr ⟨logical_eq_some (live_iff.mpr ⟨hvalid, ?_⟩) hnum
      (hino' ▸ holdsBlocks_of_isReg newFile_isReg), fun y hyn => ?_⟩
    · rw [hiused, update_self]
    · rw [(hframe3 y hyn).logical, hI2 y hyn, update_of_ne hyn]
  have hworld3 := hre.world
  have hleaked3 := hre.leaked
  rw [update_idem, ← hlog] at hworld3 hleaked3
  rw [← hwp] at hblocks2
  refine WriteOutcome.created ht hn hroom ⟨⟨hvalid, hfree, hiused, hworld3, fun b hb => ?_, ?_,
    fun y hyp hyn => (hlog2 y hyp hyn).trans (hframe3 y hyn), ?_, ?_⟩, ?_, fun g => ?_, ?_, ?_⟩
  · exact (hleak1 b).mp (hstep.leaked b ((Leaked.congr (refl w) hat b).mp (hleaked3 b hb)))
  · exact hre.kept.inodeBits (hstep.kept.inodeBits (h.inodeBits.useInode G hvalid hfree false))
  · have hnames : ShortNames (es1 ++ es2) := hes ▸ (h.dirs p hdir).names
    exact (hframe3 p hpn).dirOk hlive2 hblocks2 (hwp ▸ hstep.ok (hnames.insert (by omega)))
  · refine ⟨es1, es2, typeByte fs FT_REG, hes, ?_⟩
    rw [(hframe3 p hpn).dirEntries_eq hlive2 hblocks2, hwp, hstep.entries]
  · rw [hpino, hshape]
  · rw [hre.kept.usedDirsCount, hstep.kept.usedDirsCount]
    by_cases hg : g = fs.inoGroup num
    · subst hg
      simp
    · simp [hg]
  · exact ⟨block', blocks', by rw [hnum, hino']; rfl⟩
  · intro hok hlen
    rw [hnum]
    exact hread hok hlen

/-- **`write_file_impl`** ends in one of its outcomes. -/
theorem writeFileImpl_spec (h : Core G v) (path data : List UInt8) :
    G.Spec (writeFileImpl fs path data) v fun ok v' => WriteOutcome G v path data ok v' := by
  have hr := h.readable
  refine Exact.seq (hr.resolveParent_exact path) ?_
  cases ht : v.target fs path with
  | none => exact ret (WriteOutcome.refused rfl rfl (Refused.path ht))
  | some pb =>
    obtain ⟨p, base⟩ := pb
    have htarget := hr.target ht
    refine Exact.seq (hr.lookup (liveDir_iff.mp htarget.dir).1 base) ?_
    cases hn : (v.tree fs).step p base with
    | some num =>
      have hlive := hr.live_step hn
      have hvalid := (live_iff.mp hlive).1
      simp only [getD_some]
      rw [if_pos hvalid.ne_zero]
      refine Exact.seq (readInode_exact hvalid) ?_
      dsimp only
      cases hreg : (v.inode num).isReg with
      | false => exact ret (WriteOutcome.refused rfl rfl (Refused.notReg ht hn hreg))
      | true =>
        exact weaken (overwrite_spec h hlive hreg data) fun ok v' ho =>
          WriteOutcome.overwritten ht hn ho
    | none =>
      refine seq (allocInode_spec h.inodeBits false) ?_
      rintro num w (⟨rfl, hw, hall⟩ | ⟨hne, hvalid, hfree, rfl⟩)
      · obtain rfl := hw.symm
        exact ret (WriteOutcome.refused rfl rfl (Refused.noInode ht hn hall))
      · rw [if_neg hne]
        exact createFile_spec h ht hn hvalid hfree data

end JuampiOs.Ext2
