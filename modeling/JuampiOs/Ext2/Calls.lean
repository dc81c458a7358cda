import JuampiOs.Ext2.Consistent

/-!
# Steps of the calls

What `write_file_impl`, `mkdir_impl` and `remove_impl` have in common: the directory and the name
a path stands for, taking and giving back an inode, and how the inodes a step does not touch are
left alone.
-/

namespace JuampiOs.Ext2

open Lib Function Option View BlocksKept

variable {fs : Fs} {G : Layout fs} {v v' : View} {I : Nat → Option Inode} {x : Nat}

/-! ## The directory and the name -/

/-- What is known of the directory and the name. -/
structure Target (fs : Fs) (v : View) (path : List UInt8) (p : Nat) (base : List UInt8) : Prop where
  dir : v.liveDir fs p = true
  length : base.length ≤ 255
  /-- the path leads to the directory, and then to the name -/
  walk : ∃ names, comps path = names ++ [base] ∧
    (v.tree fs).walk EXT2_ROOT_INO names = some p

theorem Readable.target (h : Readable G v) {path base : List UInt8} {p : Nat}
    (ht : v.target fs path = some (p, base)) : Target fs v path p base := by
  obtain ⟨⟨pbuf, base'⟩, hsp, ht⟩ := bind_eq_some_iff.mp ht
  obtain ⟨q, hq, ht⟩ := bind_eq_some_iff.mp ht
  split at ht
  swap
  · cases ht
  rename_i hdir
  obtain ⟨rfl, rfl⟩ := Prod.mk.inj (some.inj ht)
  obtain ⟨hcomps, hlen⟩ := splitPath_comps hsp
  exact ⟨liveDir_iff.mpr ⟨h.live_find hq, hdir⟩, hlen, comps pbuf, hcomps, hq⟩

theorem Target.find {path base : List UInt8} {p : Nat} (h : Target fs v path p base) :
    v.find fs path = (v.tree fs).step p base := by
  obtain ⟨names, hcomps, hwalk⟩ := h.walk
  unfold View.find
  rw [hcomps, Tree.walk_append, hwalk]
  simp only [bind_some, Tree.walk]
  cases (v.tree fs).step p base with
  | none => rfl
  | some y => rfl

/-! ## Inodes a step leaves alone -/

theorem Frame.trans {v'' : View} (h : Frame fs v v' x) (h' : Frame fs v' v'' x) :
    Frame fs v v'' x :=
  ⟨h'.iused.trans h.iused, h'.inode.trans h.inode, fun σ b hb =>
    (h'.data σ b ((h.at_iff σ b).mpr hb)).trans (h.data σ b hb)⟩

theorem Frame.dirFull_iff (h : Frame fs v v' x) (hx : v.liveDir fs x = true) (name : List UInt8) :
    DirFull fs v'.data (v.inode x) name ↔ DirFull fs v.data (v.inode x) name := by
  obtain ⟨hlive, hdir⟩ := liveDir_iff.mp hx
  have hb : (v.inode x).holdsBlocks fs = true := holdsBlocks_of_isDir hdir
  refine forall_congr' fun i => forall_congr' fun hi => ?_
  rw [h.fileBlk_eq hlive hb]
  refine forall_congr' fun h0 => ?_
  rw [h.data_fileBlk hlive hb h0]

variable {y num : Nat}

theorem Rewritten.frameAt {ino' : Inode} (h : Rewritten G x I v ino' v') (hy : y ≠ x)
    (hI : logical fs v y = I y) : Frame fs v v' y := by
  refine ⟨by rw [h.kept.iused], by rw [h.inode, update_of_ne hy], fun σ b hb => ?_⟩
  refine h.frame y σ b hy ?_
  unfold At at hb ⊢
  rw [← hI]
  exact hb

variable {ino : Inode}

theorem frame_setInode (hy : y ≠ x) : Frame fs v (v.setInode x ino) y :=
  ⟨rfl, update_of_ne hy .., fun _ _ _ => rfl⟩

variable {isDir : Bool}

theorem frame_useInode (hy : y ≠ x) : Frame fs v (v.useInode fs x isDir) y :=
  ⟨update_of_ne hy .., rfl, fun _ _ _ => rfl⟩

theorem frame_unuseInode (hy : y ≠ x) : Frame fs v (v.unuseInode fs x isDir) y :=
  ⟨update_of_ne hy .., rfl, fun _ _ _ => rfl⟩

theorem OnlyFrees.frame (h : OnlyFrees v v') (y : Nat) : Frame fs v v' y :=
  ⟨by rw [h.kept.iused], by rw [h.inode], fun _ _ _ => by rw [h.data]⟩

theorem frame_fresh {b : Nat} {buf : Buf} (hI : logical fs v y = I y)
    (hb : ¬ Owned fs I v.data b) : Frame fs v (v.fresh fs b buf) y := by
  refine ⟨rfl, rfl, fun σ c hc => update_of_ne ?_ _ _⟩
  rintro rfl
  refine hb ⟨y, σ, ?_⟩
  unfold At at hc ⊢
  rw [← hI]
  exact hc

/-! ## Taking and giving back an inode -/

private theorem update_gd_of_eq {α : Type} (f : GroupDesc → α) (v : View) (g h : Nat)
    {gd : GroupDesc} (hf : f gd = f (v.gd g)) : f (update v.gd g gd h) = f (v.gd h) := by
  by_cases hg : h = g
  · subst hg
    rw [update_self, hf]
  · rw [update_of_ne hg]

theorem BlocksKept.useInode (fs : Fs) (v : View) (x : Nat) (isDir : Bool) :
    BlocksKept v (v.useInode fs x isDir) :=
  ⟨rfl, fun g => update_gd_of_eq (·.freeBlocksCount) v _ g rfl, rfl⟩

theorem BlocksKept.unuseInode (fs : Fs) (v : View) (x : Nat) (isDir : Bool) :
    BlocksKept v (v.unuseInode fs x isDir) :=
  ⟨rfl, fun g => update_gd_of_eq (·.freeBlocksCount) v _ g rfl, rfl⟩

theorem Leaked.congr (hk : BlocksKept v v') {I' : Nat → Option Inode}
    (hat : ∀ y σ b, At fs I' v'.data y σ b ↔ At fs I v.data y σ b) (c : Nat) :
    Leaked G I' v' c ↔ Leaked G I v c := by
  have hown : Owned fs I' v'.data c ↔ Owned fs I v.data c :=
    exists_congr fun y => exists_congr fun σ => hat y σ c
  unfold Leaked
  rw [hown, hk.bused]

theorem at_of_no_ptr (hz : ∀ r, ino.ptr r = 0) (hx : I x = none)
    (data : Nat → Buf) (y : Nat) (σ : PtrSlot) (b : Nat) :
    At fs (update I x (some ino)) data y σ b ↔ At fs I data y σ b := by
  by_cases hy : y = x
  · subst hy
    rw [at_iff (update_self ..)]
    constructor
    · rintro ⟨_, href, h0⟩
      unfold ref at href
      rw [hz, walkPtr_zero] at href
      exact absurd href.symm h0
    · rintro ⟨ino', hino, _⟩
      rw [hx] at hino
      cases hino
  · unfold At
    rw [update_of_ne hy]

theorem ptr_zero (r : Nat) : Inode.zero.ptr r = 0 := by
  unfold Inode.ptr
  split <;> rfl

theorem Fs.ValidIno.lt (G : Layout fs) (hx : fs.ValidIno x) : x < 2 ^ 32 :=
  Nat.lt_of_le_of_lt hx.2 G.inodesCount_lt

theorem Fs.ValidIno.ne_zero (hx : fs.ValidIno x) : x ≠ 0 := by
  have := hx.1
  omega

theorem Core.reserved_le (h : Core G v) (hx : fs.ValidIno x) (hfree : v.iused x = false) :
    fs.firstIno ≤ x := by
  by_contra hlt
  have := h.reserved x hx (by omega)
  rw [hfree] at this
  cases this

theorem ne_of_free (hx : v.live fs x = true) (hfree : v.iused num = false) : x ≠ num := by
  rintro rfl
  rw [(live_iff.mp hx).2] at hfree
  cases hfree

theorem not_liveDir_of_free (hfree : v.iused num = false) : v.liveDir fs num = false := by
  unfold liveDir live
  simp [hfree]

theorem Core.world_useInode (h : Core G v) (num : Nat) (isDir : Bool) :
    World G (logical fs v) (v.useInode fs num isDir) ∧
      ∀ b, Leaked G (logical fs v) (v.useInode fs num isDir) b ↔ Leaked G (logical fs v) v b :=
  ⟨h.world.of_at (useInode fs v num isDir) id,
    Leaked.congr (useInode fs v num isDir) fun _ _ _ => Iff.rfl⟩

/-! ## Link counts -/

theorem DirOk.setLinks {data : Nat → Buf} (h : DirOk fs data ino) (n : UInt16) :
    DirOk fs data { ino with linksCount := n } := ⟨⟨h.isDir, h.size, h.blocks, h.beyond⟩, h.names⟩

theorem dirEntries_setLinks (fs : Fs) (data : Nat → Buf) (ino : Inode) (n : UInt16) :
    dirEntries fs data { ino with linksCount := n } = dirEntries fs data ino := rfl

/-! ## Creations -/

/-- Directory `p` has one more entry, for the inode `num` that was free before. -/
structure Created (G : Layout fs) (v : View) (p : Nat) (base : List UInt8) (num : Nat) (v' : View) :
    Prop where
  valid : fs.ValidIno num
  free : v.iused num = false
  iused : v'.iused = update v.iused num true
  world : World G (logical fs v') v'
  leaked : ∀ b, Leaked G (logical fs v') v' b → Leaked G (logical fs v) v b
  inodeBits : InodeBits fs v'
  frame : ∀ y, y ≠ p → y ≠ num → Frame fs v v' y
  parentOk : DirOk fs v'.data (v'.inode p)
  entries : ∃ es₁ es₂ type, dirEntries fs v.data (v.inode p) = es₁ ++ es₂ ∧
    dirEntries fs v'.data (v'.inode p) = es₁ ++ ⟨base, num, type⟩ :: es₂

/-- A creation was undone: inode `num` is free again. The blocks `lost` stay taken. -/
structure Undone (G : Layout fs) (v : View) (num : Nat) (lost : Nat → Prop) (v' : View) : Prop where
  valid : fs.ValidIno num
  free : v.iused num = false
  iused : v'.iused = v.iused
  world : World G (logical fs v') v'
  leaked : ∀ b, Leaked G (logical fs v') v' b ↔ Leaked G (logical fs v) v b ∨ lost b
  inodeBits : InodeBits fs v'
  dirCount : ∀ g, (v'.gd g).usedDirsCount = (v.gd g).usedDirsCount
  frame : ∀ y, y ≠ num → Frame fs v v' y

/-- The directory counter cannot have wrapped while an inode of its group is free. -/
theorem usedDirsCount_lt (h : Core G v) (hvalid : fs.ValidIno num)
    (hfree : v.iused num = false) : (v.gd (fs.inoGroup num)).usedDirsCount.toNat < 2 ^ 16 - 1 := by
  obtain ⟨hg, hi, hno⟩ := inoPlace_lt G hvalid
  have hlt : v.dirsIn fs (fs.inoGroup num) < fs.inodesPerGroup := by
    refine count_lt hi ?_
    show v.liveDir fs (fs.inodeNo (inoPlace fs num).1 (inoPlace fs num).2) = false
    rw [hno]
    unfold liveDir live
    simp [hfree]
  have hipg := G.inodesPerGroup_lt
  have := h.dirCount (fs.inoGroup num) hg
  omega

/-- Giving the new inode back leaves everything as it was, but for blocks that were lost. -/
theorem undone_of_unuse (h : Core G v) (hvalid : fs.ValidIno num)
    (hfree : v.iused num = false) {lost : Nat → Prop} {w : View}
    (hworld : World G (logical fs v) w)
    (hleak : ∀ b, Leaked G (logical fs v) w b ↔ Leaked G (logical fs v) v b ∨ lost b)
    (hkept : InodesKept (v.useInode fs num isDir) w) (hframe : ∀ y, y ≠ num → Frame fs v w y) :
    Undone G v num lost (w.unuseInode fs num isDir) := by
  have hiused : (w.unuseInode fs num isDir).iused = v.iused := by
    rw [unuseInode_iused, hkept.iused, useInode_iused, update_idem, ← hfree, update_eq_self]
  have hframe' : ∀ y, y ≠ num → Frame fs v (w.unuseInode fs num isDir) y := fun y hy =>
    (hframe y hy).trans (frame_unuseInode hy)
  have hdead : ∀ u : View, u.iused = v.iused → logical fs u num = none := fun u hu => by
    refine logical_of_not_live ?_
    unfold live
    rw [hu, hfree]
    simp
  have hlog : logical fs (w.unuseInode fs num isDir) = logical fs v := by
    funext y
    by_cases hy : y = num
    · subst hy
      rw [hdead _ hiused, hdead v rfl]
    · exact (hframe' y hy).logical
  have hused : w.iused num = true := by
    rw [hkept.iused, useInode_iused, update_self]
  refine ⟨hvalid, hfree, hiused, ?_, fun b => ?_, ?_, fun g => ?_, hframe'⟩
  · rw [hlog]
    exact hworld.of_at (unuseInode fs w num isDir) id
  · rw [hlog, Leaked.congr (unuseInode fs w num isDir) (fun _ _ _ => Iff.rfl), hleak]
  · exact (hkept.inodeBits (h.inodeBits.useInode G hvalid hfree isDir)).unuseInode G hvalid hused
      isDir
  · by_cases hg : g = fs.inoGroup num
    · subst hg
      have hold := hkept.usedDirsCount (fs.inoGroup num)
      simp only [useInode_gd, update_self] at hold
      simp only [unuseInode_gd, update_self]
      rw [hold]
      cases isDir with
      | false => rfl
      | true =>
        have hlt := usedDirsCount_lt h hvalid hfree
        generalize (v.gd (fs.inoGroup num)).usedDirsCount = n at hlt ⊢
        have hsucc := toNat_succ16 hlt
        have hpos : 0 < n + 1 := by
          rw [UInt16.lt_iff_toNat_lt, hsucc]
          exact Nat.succ_pos _
        simp [hpos]
    · have hold := hkept.usedDirsCount g
      simp only [useInode_gd, update_of_ne hg] at hold
      simp only [unuseInode_gd, update_of_ne hg]
      exact hold

end JuampiOs.Ext2
