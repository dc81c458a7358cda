import JuampiOs.Ext2.Calls

/-!
# `mkdir_impl`

A new directory takes an inode and a block before its parent is asked for room. When the parent
has none, both are given back (`MkdirOutcome.undone`).
-/

namespace JuampiOs.Ext2

open Lib Function List View Spec InodesKept BlocksKept

variable {fs : Fs} {G : Layout fs} {v v' : View} {I : Nat → Option Inode}

/-! ## Outcomes -/

/-- The created inode is a directory with its two special entries. -/
structure CreatedDir (G : Layout fs) (v : View) (p : Nat) (base : List UInt8) (num : Nat)
    (v' : View) : Prop extends Created G v p base num v' where
  parentLinks : (v'.inode p).linksCount = (v.inode p).linksCount + 1
  dirCount : ∀ g, (v'.gd g).usedDirsCount =
    if g = fs.inoGroup num then (v.gd g).usedDirsCount + 1 else (v.gd g).usedDirsCount
  dirOk : DirOk fs v'.data (v'.inode num)
  links : (v'.inode num).linksCount = 2
  dirEntries : dirEntries fs v'.data (v'.inode num) =
    [⟨[46], num, typeByte fs FT_DIR⟩, ⟨[46, 46], p, typeByte fs FT_DIR⟩]

/-- Why a call is refused before anything is changed. -/
inductive MkdirRefused (fs : Fs) (v : View) (path : List UInt8) : Prop where
  /-- there is no directory to look in -/
  | path (h : v.target fs path = none)
  /-- there is something with this name -/
  | found {p num : Nat} {base : List UInt8} (ht : v.target fs path = some (p, base))
      (hn : (v.tree fs).step p base = some num)
  /-- there is no free inode -/
  | noInode {p : Nat} {base : List UInt8} (ht : v.target fs path = some (p, base))
      (hn : (v.tree fs).step p base = none) (h : ∀ x, fs.ValidIno x → v.iused x = true)

/-- How `mkdir_impl` can end. The room of the parent is that after block `blk` has been taken for
the new directory. -/
inductive MkdirOutcome (G : Layout fs) (v : View) (path : List UInt8) (ok : Bool) (v' : View) :
    Prop where
  | refused (hok : ok = false) (hv : v' = v) (why : MkdirRefused fs v path)
  | noBlock {p num : Nat} {base : List UInt8} (hok : ok = false)
      (ht : v.target fs path = some (p, base)) (hn : (v.tree fs).step p base = none)
      (hfree : ∀ b, ¬ v.Free fs b) (h : Undone G v num (fun _ => False) v')
  | undone {p num blk : Nat} {base : List UInt8} {lost : Nat → Prop} (hok : ok = false)
      (ht : v.target fs path = some (p, base)) (hn : (v.tree fs).step p base = none)
      (hblk : v.Free fs blk) (hfull : DirFull fs v.data (v.inode p) base)
      (hlost : ((∀ b, ¬ lost b) ∧ ∀ b, ¬ (v.useBlock fs blk).Free fs b) ∨
        ((∃ b, lost b) ∧ (∃ b, (v.useBlock fs blk).Free fs b) ∧
          GrowFails fs (v.useBlock fs blk) (v.inode p) (dirBlocks fs (v.inode p))))
      (h : Undone G v num lost v')
  | created {p num blk : Nat} {base : List UInt8} (hok : ok = true)
      (ht : v.target fs path = some (p, base))
      (hn : (v.tree fs).step p base = none) (hblk : v.Free fs blk)
      (hroom : ¬ NoRoom fs (v.useBlock fs blk) (v.inode p) base)
      (h : CreatedDir G v p base num v')

/-! ## The new directory -/

/-- The directory `mkdir_impl` creates, before it has its block. -/
def emptyDir (fs : Fs) : Inode := { Inode.zero with
  mode := S_IFDIR ||| 0o755
  linksCount := 2
  size := UInt32.ofNat fs.blockSize
  blocks := UInt32.ofNat (fs.blockSize / 512) }

theorem emptyDir_ptr (fs : Fs) (r : Nat) : (emptyDir fs).ptr r = 0 := ptr_zero r

def newDir (fs : Fs) (blk : Nat) : Inode := (emptyDir fs).setPtr 0 blk

theorem newDir_isDir (fs : Fs) (blk : Nat) : (newDir fs blk).isDir = true :=
  show ((S_IFDIR ||| 0o755) &&& S_IFMT == S_IFDIR) = true by decide

theorem newDir_size (G : Layout fs) (blk : Nat) :
    (newDir fs blk).size.toNat = 1 * fs.blockSize := by
  have hle := G.blockSize_le
  show (UInt32.ofNat fs.blockSize).toNat = _
  rw [UInt32.toNat_ofNat_of_lt' (by
    show fs.blockSize < 2 ^ 32
    omega), one_mul]

theorem newDir_dirBlocks (G : Layout fs) (blk : Nat) : dirBlocks fs (newDir fs blk) = 1 :=
  dirBlocks_of_size G (newDir_isDir fs blk) (newDir_size G blk)

variable {data : Nat → Buf} {blk : Nat}

theorem ref_newDir (hblk : blk < 2 ^ 32) (σ : PtrSlot) (hσ : SlotOk fs σ) :
    ref data (newDir fs blk) σ = if σ = (0, []) then blk else ref data (emptyDir fs) σ :=
  ref_setPtr fs data (show 0 < 15 by decide) hblk (emptyDir_ptr fs 0)
    (fun i is hs => absurd hs.depth (by simp)) σ hσ

theorem ref_emptyDir (data : Nat → Buf) (σ : PtrSlot) : ref data (emptyDir fs) σ = 0 := by
  unfold ref
  rw [emptyDir_ptr, walkPtr_zero]

theorem fileBlk_newDir (hblk : blk < 2 ^ 32) (i : Nat) :
    fileBlk fs data (newDir fs blk) i = if i = 0 then blk else 0 := by
  have hslot : fileSlot fs 0 = some (0, []) := rfl
  rw [fileBlk_of_ref hslot (ref_newDir hblk) i]
  have hnone : fileBlk fs data (emptyDir fs) i = 0 := by
    unfold fileBlk
    cases fileSlot fs i with
    | none => rfl
    | some σ => exact ref_emptyDir data σ
  rw [hnone]

theorem newDir_tiled (G : Layout fs) (hblk : blk < 2 ^ 32)
    (hblk0 : blk ≠ 0) {es : List Entry} (hes : DirBlock fs (data blk) es) :
    DirTiled fs data (newDir fs blk) ∧ dirEntries fs data (newDir fs blk) = es := by
  have hfile : ∀ i, fileBlk fs data (newDir fs blk) i = if i = 0 then blk else 0 :=
    fileBlk_newDir hblk
  refine ⟨⟨newDir_isDir fs blk, ⟨1, ?_⟩, fun i hi _ => ?_, fun i hi => ?_⟩, ?_⟩
  · rw [newDir_size G, mul_comm]
  · rw [newDir_dirBlocks G] at hi
    rw [hfile, if_pos (by omega)]
    exact ⟨es, hes⟩
  · rw [newDir_dirBlocks G] at hi
    rw [hfile, if_neg (by omega)]
  · have hblock : fileBlock fs data (newDir fs blk) 0 = data blk := by
      unfold fileBlock
      rw [hfile, if_pos rfl, if_neg hblk0]
    unfold dirEntries
    rw [newDir_dirBlocks G]
    simp only [range_one, flatMap_cons, flatMap_nil, append_nil]
    rw [hblock, hes.entries G.eight_dvd]

/-! ## Before the parent is asked -/

/-- The view once the new directory has its inode and its block. -/
def View.prepared (fs : Fs) (v : View) (p num blk : Nat) : View :=
  ((v.useInode fs num true).fresh fs blk ((initDirBlock fs num p).take fs.blockSize)).setInode num
    (newDir fs blk)

theorem prepared_kept (fs : Fs) (v : View) (p num blk : Nat) :
    InodesKept (v.useInode fs num true) (v.prepared fs p num blk) :=
  (InodesKept.fresh fs (v.useInode fs num true) blk _).trans (InodesKept.setInode _ num _)

section

variable {p num : Nat} (h : Core G v) (hblk : v.Free fs blk)
include h hblk

theorem Core.world_prepared (p num : Nat) :
    World G (logical fs v) (v.prepared fs p num blk) ∧
      ∀ c, Leaked G (logical fs v) (v.prepared fs p num blk) c ↔
        Leaked G (logical fs v) v c ∨ c = blk := by
  obtain ⟨hworld, hleak⟩ := h.world_useInode num true
  have hblk1 : (v.useInode fs num true).Free fs blk := hblk
  refine ⟨(hworld.fresh hblk1 _).of_at (setInode _ _ _) id, fun c => ?_⟩
  unfold prepared
  rw [Leaked.congr (setInode _ _ _) (fun _ _ _ => Iff.rfl), hworld.leaked_fresh hblk1, hleak]

theorem Core.world_newDir (hfree : v.iused num = false) :
    World G (update (logical fs v) num (some (newDir fs blk)))
        (v.prepared fs p num blk) ∧
      ∀ c, Leaked G (update (logical fs v) num (some (newDir fs blk)))
        (v.prepared fs p num blk) c ↔ Leaked G (logical fs v) v c := by
  obtain ⟨hworld, hleak⟩ := h.world_prepared hblk p num
  have hnone : logical fs v num = none :=
    logical_of_not_live (by unfold live; simp [hfree])
  have hat : ∀ y σ c, At fs (update (logical fs v) num (some (emptyDir fs)))
      (v.prepared fs p num blk).data y σ c ↔ At fs (logical fs v)
      (v.prepared fs p num blk).data y σ c :=
    at_of_no_ptr (emptyDir_ptr fs) hnone _
  have hleak0 := Leaked.congr (G := G) (refl (v.prepared fs p num blk)) hat
  have hlost := (hleak0 blk).mpr ((hleak blk).mpr (.inr rfl))
  obtain ⟨hworld', hleak'⟩ := (hworld.of_at (refl _) fun {y σ c} hc =>
    (hat y σ c).mp hc).attach (update_self ..) hlost
      (slotOk_root (by decide)) (ref_emptyDir _ (0, []))
      (newDir fs blk) (refl _) (fun σ hσ => ref_newDir hlost.lt σ hσ)
      fun _ _ _ _ _ => rfl
  rw [update_idem] at hworld' hleak'
  refine ⟨hworld', fun c => ?_⟩
  rw [hleak', hleak0, hleak]
  constructor
  · rintro ⟨hc | hc, hne⟩
    · exact hc
    · exact absurd hc hne
  · intro hc
    refine ⟨.inl hc, ?_⟩
    rintro rfl
    have := hc.2.2.1
    rw [hblk.2] at this
    cases this

theorem Core.frame_prepared {y : Nat} (hy : y ≠ num) :
    Frame fs v (v.prepared fs p num blk) y := by
  have h1 : Frame fs v (v.useInode fs num true) y := frame_useInode hy
  have h2 : Frame fs (v.useInode fs num true) ((v.useInode fs num true).fresh fs blk
      ((initDirBlock fs num p).take fs.blockSize)) y :=
    frame_fresh h1.logical (h.world.not_owned hblk)
  exact (h1.trans h2).trans (frame_setInode hy)

theorem Core.newDir_ok (hvalid : fs.ValidIno num) (hp : fs.ValidIno p) :
    DirOk fs (v.prepared fs p num blk).data (newDir fs blk) ∧
      dirEntries fs (v.prepared fs p num blk).data (newDir fs blk) =
        [⟨[46], num, typeByte fs FT_DIR⟩, ⟨[46, 46], p, typeByte fs FT_DIR⟩] := by
  have hlt := (h.world.reserved.lt hblk).trans G.blocksCount_lt
  have hdata : (v.prepared fs p num blk).data blk = (initDirBlock fs num p).take fs.blockSize :=
    update_self ..
  have hes := (initDirBlock_dirBlock G.blockSize_le G.blockSize.ge (hvalid.lt G) hvalid.ne_zero
    (hp.lt G) hp.ne_zero).take
  rw [← hdata] at hes
  obtain ⟨htiled, hentries⟩ := newDir_tiled G hlt (h.world.reserved.ne_zero hblk) hes
  refine ⟨⟨htiled, ?_⟩, hentries⟩
  rw [hentries]
  simp [ShortNames]

/-! ## The call -/

theorem Core.undone_mkdir (hvalid : fs.ValidIno num) (hfree : v.iused num = false) {w : View}
    {lost : Nat → Prop}
    (hw : (w = v.prepared fs p num blk ∧ ∀ b, ¬ lost b) ∨ ∃ b, (v.useBlock fs blk).Free fs b ∧
      w = (v.prepared fs p num blk).allocBlock fs b ∧ ∀ c, lost c ↔ c = b) :
    Undone G v num lost ((w.dropBlock fs blk).unuseInode fs num true) := by
  obtain ⟨hworld, hleak⟩ := h.world_prepared hblk p num
  have hkept := prepared_kept fs v p num blk
  have hframe := fun y (hy : y ≠ num) => h.frame_prepared (p := p) hblk hy
  have hused : ∀ {c}, Leaked G (logical fs v) v c → c ≠ blk := by
    rintro c hc rfl
    have := hc.2.2.1
    rw [hblk.2] at this
    cases this
  rcases hw with ⟨rfl, hnone⟩ | ⟨b, hb, rfl, hlost⟩
  · have hlb := (hleak blk).mpr (.inr rfl)
    refine undone_of_unuse h hvalid hfree (hworld.drop hlb) (fun c => ?_)
      (hkept.trans (dropBlock fs _ blk))
      fun y hy => (hframe y hy).trans ((onlyFrees_dropBlock _ blk).frame y)
    rw [World.leaked_drop hlb, hleak]
    constructor
    · rintro ⟨hc | rfl, hne⟩
      · exact .inl hc
      · exact absurd rfl hne
    · rintro (hc | hc)
      · exact ⟨.inl hc, hused hc⟩
      · exact absurd hc (hnone c)
  · have hb' : (v.prepared fs p num blk).Free fs b := hb
    have hne : b ≠ blk := by
      rintro rfl
      have := hb.2
      rw [useBlock_bused, update_self] at this
      cases this
    have hleak2 := hworld.leaked_fresh hb' Buf.zero
    have hlb : Leaked G (logical fs v) ((v.prepared fs p num blk).allocBlock fs b) blk :=
      (hleak2 blk).mpr (.inl ((hleak blk).mpr (.inr rfl)))
    refine undone_of_unuse h hvalid hfree ((hworld.fresh hb' Buf.zero).drop hlb) (fun c => ?_)
      ((hkept.trans (fresh fs _ b Buf.zero)).trans (dropBlock fs _ blk))
      fun y hy => ((hframe y hy).trans (frame_fresh (hframe y hy).logical
        (hworld.not_owned hb'))).trans ((onlyFrees_dropBlock _ blk).frame y)
    rw [hlost, World.leaked_drop hlb]
    constructor
    · rintro ⟨hc, hcne⟩
      rcases (hleak2 c).mp hc with hc | hc
      · rcases (hleak c).mp hc with hc | hc
        · exact .inl hc
        · exact absurd hc hcne
      · exact .inr hc
    · rintro (hc | rfl)
      · exact ⟨(hleak2 c).mpr (.inl ((hleak c).mpr (.inl hc))), hused hc⟩
      · exact ⟨(hleak2 c).mpr (.inr rfl), hne⟩

theorem Core.created_mkdir {base : List UInt8} (hdir : v.liveDir fs p = true)
    (hvalid : fs.ValidIno num) (hfree : v.iused num = false) (hbase : base.length ≤ 255)
    {dir' : Inode} {es₁ es₂ : List Entry} {w : View} {type : UInt8}
    (hes : dirEntries fs v.data (v.inode p) = es₁ ++ es₂)
    (hstep : DirStep G p (update (logical fs v) num (some (newDir fs blk)))
      (v.prepared fs p num blk) (v.inode p) dir' (es₁ ++ ⟨base, num, type⟩ :: es₂) w) :
    CreatedDir G v p base num
      (w.setInode p { dir' with linksCount := dir'.linksCount + 1 }) := by
  have hpn : p ≠ num := ne_of_free (liveDir_iff.mp hdir).1 hfree
  obtain ⟨hworld, hleak⟩ := h.world_newDir (p := p) hblk hfree
  obtain ⟨hok, hentries⟩ := h.newDir_ok hblk hvalid (valid_of_liveDir hdir)
  have hkept := (prepared_kept fs v p num blk).trans hstep.kept
  obtain ⟨block, blocks, size, hshape⟩ := hstep.shape
  set dir'' : Inode := { dir' with linksCount := dir'.linksCount + 1 } with hdir''
  have hiused : w.iused = update v.iused num true := hkept.iused
  -- the other inodes, step by step
  have hframe1 := fun y (hy : y ≠ num) => h.frame_prepared (p := p) hblk hy
  have hnumlive : (v.prepared fs p num blk).live fs num = true := live_iff.mpr ⟨hvalid, by
    rw [(prepared_kept fs v p num blk).iused, useInode_iused, update_self]⟩
  have hnumino : (v.prepared fs p num blk).inode num = newDir fs blk := update_self ..
  have hnumblocks : (newDir fs blk).holdsBlocks fs = true :=
    holdsBlocks_of_isDir (newDir_isDir fs blk)
  have hlog1 : logical fs (v.prepared fs p num blk) =
      update (logical fs v) num (some (newDir fs blk)) :=
    eq_update_iff.mpr ⟨logical_eq_some hnumlive hnumino hnumblocks,
      fun y hy => (hframe1 y hy).logical⟩
  have hframe2 : ∀ y, y ≠ p → Frame fs (v.prepared fs p num blk) (w.setInode p dir'') y :=
    fun y hy => (hstep.frameAt hy (congrFun hlog1 y)).trans (frame_setInode hy)
  have hpino : (w.setInode p dir'').inode p = dir'' := update_self ..
  have hlog : logical fs (w.setInode p dir'') = update
      (update (logical fs v) num (some (newDir fs blk))) p (some dir'') := by
    have hlive : (w.setInode p dir'').live fs p = v.live fs p := live_congr (by
      rw [setInode_iused, hiused, update_of_ne hpn])
    refine eq_update_iff.mpr ⟨logical_eq_some (hlive.trans (liveDir_iff.mp hdir).1) hpino
      (holdsBlocks_of_isDir hstep.tiled.isDir), fun y hy => ?_⟩
    rw [(hframe2 y hy).logical, hlog1]
  have hptr : dir''.ptr = dir'.ptr := rfl
  have hat := fun y σ c => (at_ptr hptr w.data y σ c : At fs (update
    (update (logical fs v) num (some (newDir fs blk))) p (some dir'')) _ _ _ _ ↔ _)
  rw [← hnumino] at hnumblocks
  have hnum := hframe2 num (Ne.symm hpn)
  refine ⟨⟨hvalid, hfree, hiused, ?_, fun b hb => ?_, ?_,
    fun y hyp hyn => (hframe1 y hyn).trans (hframe2 y hyp), ?_, ⟨es₁, es₂, type, hes, ?_⟩⟩,
    ?_, fun g => ?_, ?_, ?_, ?_⟩
  · rw [hlog]
    exact hstep.world.of_at (setInode _ _ _) fun {y σ c} hc => (hat y σ c).mp hc
  · rw [hlog, Leaked.congr (setInode _ _ _) hat] at hb
    exact (hleak b).mp (hstep.leaked b hb)
  · exact (hkept.trans (setInode _ _ _)).inodeBits (h.inodeBits.useInode G hvalid hfree true)
  · rw [hpino]
    exact (hstep.ok ((hes ▸ (h.dirs p hdir).names).insert hbase)).setLinks _
  · rw [hpino, hdir'', dirEntries_setLinks]
    exact hstep.entries
  · rw [hpino, hdir'', hshape]
  · rw [setInode_gd, hkept.usedDirsCount]
    by_cases hg : g = fs.inoGroup num
    · subst hg
      simp
    · simp [hg]
  · exact hnum.dirOk hnumlive hnumblocks (hnumino.symm ▸ hok)
  · rw [hnum.inode, hnumino]
    rfl
  · rw [hnum.dirEntries_eq hnumlive hnumblocks, hnumino, hentries]

end

/-- **`mkdir_impl`** ends in one of its outcomes. -/
theorem mkdirImpl_spec (h : Core G v) (path : List UInt8) :
    G.Spec (mkdirImpl fs path) v fun ok v' => MkdirOutcome G v path ok v' := by
  have hr := h.readable
  refine Exact.seq (hr.resolveParent_exact path) ?_
  cases ht : v.target fs path with
  | none => exact ret (MkdirOutcome.refused rfl rfl (MkdirRefused.path ht))
  | some pb =>
    obtain ⟨p, base⟩ := pb
    have htarget := hr.target ht
    have hdir := htarget.dir
    have hpvalid := valid_of_liveDir hdir
    refine Exact.seq (hr.lookup (liveDir_iff.mp hdir).1 base) ?_
    cases hn : (v.tree fs).step p base with
    | some num =>
      have hvalid := (live_iff.mp (hr.live_step hn)).1
      simp only [Option.getD_some, ne_eq, hvalid.ne_zero, not_false_eq_true, if_true]
      exact ret (MkdirOutcome.refused rfl rfl (MkdirRefused.found ht hn))
    | none =>
      refine seq (allocInode_spec h.inodeBits true) ?_
      rintro num w (⟨rfl, hw, hall⟩ | ⟨hne, hvalid, hfree, rfl⟩)
      · obtain rfl := hw.symm
        exact ret (MkdirOutcome.refused rfl rfl (MkdirRefused.noInode ht hn hall))
      rw [if_neg hne]
      obtain ⟨hworld1, hleak1⟩ := h.world_useInode num true
      refine seq (allocBlock_spec hworld1.bits hworld1.reserved) ?_
      rintro blk w (⟨rfl, rfl, hnone⟩ | ⟨hblk0, hblk, rfl⟩)
      · rw [if_pos rfl]
        refine Exact.seq (freeInode_exact hvalid true) (ret ?_)
        exact MkdirOutcome.noBlock rfl ht hn hnone (undone_of_unuse h hvalid hfree hworld1
          (fun b => by rw [hleak1]; simp) (refl _) fun y hy => frame_useInode hy)
      rw [if_neg hblk0]
      have hblk : v.Free fs blk := hblk
      refine Exact.seq (writeBlock_data (Layout.isData_of_not_sys
        (h.world.reserved.not_sys hblk)) _) ?_
      refine Exact.seq (writeInode_exact hvalid _) ?_
      have hprep : (((v.useInode fs num true).allocBlock fs blk).setData blk
          ((initDirBlock fs num p).take fs.blockSize)).setInode num (newDir fs blk) =
          v.prepared fs p num blk := by
        unfold View.prepared View.fresh View.allocBlock View.setData
        rw [update_idem]
      have hpn : p ≠ num := ne_of_free (liveDir_iff.mp hdir).1 hfree
      have hframe := h.frame_prepared (p := p) hblk hpn
      obtain ⟨hlive, hisdir⟩ := liveDir_iff.mp hdir
      have hpok := hframe.dirOk hlive (holdsBlocks_of_isDir hisdir) (h.dirs p hdir)
      have hpes := hframe.dirEntries_eq hlive (holdsBlocks_of_isDir hisdir)
      rw [hframe.inode] at hpok hpes
      have hlen := htarget.length
      show G.Spec _ ((((v.useInode fs num true).allocBlock fs blk).setData blk
        ((initDirBlock fs num p).take fs.blockSize)).setInode num (newDir fs blk)) _
      rw [hprep]
      refine seq (dirAdd_spec (h.world_newDir (p := p) hblk hfree).1
        (by rw [update_of_ne hpn]; exact logical_of_liveDir hdir) hframe.inode hpvalid
        hpok.toDirTiled (by omega) (hvalid.lt G) hvalid.ne_zero) ?_
      rintro ⟨ok, dir'⟩ w (⟨hok, hroom, _, hadded⟩ | ⟨hok, _, hfull, hlost⟩)
      · subst hok
        obtain ⟨es1, es2, hes, hstep⟩ := hadded (hpok.firstShort G)
        refine Exact.seq (writeInode_exact hpvalid _) (ret ?_)
        have hroom' : ¬ NoRoom fs (v.useBlock fs blk) (v.inode p) base := fun hno =>
          hroom ⟨(hframe.dirFull_iff hdir base).mpr hno.1, hno.2⟩
        exact MkdirOutcome.created rfl ht hn hblk hroom'
          (h.created_mkdir hblk hdir hvalid hfree (by omega) (hpes ▸ hes) hstep)
      subst hok
      refine Exact.seq (freeBlock_exact blk) ?_
      refine Exact.seq (freeInode_exact hvalid true) (ret ?_)
      rw [hframe.dirFull_iff hdir] at hfull
      rcases hlost with ⟨rfl, hnone⟩ | ⟨b, hb, rfl, hgrow⟩
      · exact MkdirOutcome.undone rfl ht hn hblk hfull (.inl ⟨fun _ => id, hnone⟩)
          (h.undone_mkdir hblk hvalid hfree (.inl ⟨rfl, fun _ => id⟩))
      · have hundone : Undone G v num (fun c => c = b) _ :=
          h.undone_mkdir (p := p) hblk hvalid hfree (.inr ⟨b, hb, rfl, fun _ => Iff.rfl⟩)
        refine MkdirOutcome.undone rfl ht hn hblk hfull ?_ hundone
        exact .inr ⟨⟨b, rfl⟩, ⟨b, hb⟩, hgrow⟩

end JuampiOs.Ext2
