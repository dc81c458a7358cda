import JuampiOs.Lib.TreeCheck
import JuampiOs.Ext2.Consistent
import JuampiOs.Ext2.Decode

/-!
# Checking a file system

`fsck` decides whether a view is consistent, by going through its inodes, the places of their
block trees, the records of its directories and the bits of its bitmaps (`consistent_of_fsck`).
-/

namespace JuampiOs.Ext2

open Lib List

variable {fs : Fs} {v : View}

/-! ## The places of the block trees -/

/-- The blocks at and below `b` in a tree of depth `depth`, with the ways down to them. -/
def placesBelow (fs : Fs) (data : Nat → Buf) : Nat → Nat → List (List Nat × Nat)
  | 0, b => if b = 0 then [] else [([], b)]
  | depth + 1, b =>
    if b = 0 then []
    else ([], b) :: (range fs.per).flatMap fun i =>
      (placesBelow fs data depth (ptrAt (data b) i)).map fun q => (i :: q.1, q.2)

variable {data : Nat → Buf} {depth : Nat}

theorem mem_placesBelow {b c : Nat} {is : List Nat} :
    (is, c) ∈ placesBelow fs data depth b ↔
      is.length ≤ depth ∧ (∀ i ∈ is, i < fs.per) ∧ walkPtr data b is = c ∧ c ≠ 0 := by
  induction is generalizing depth b with
  | nil => cases depth <;> by_cases hb : b = 0 <;> simp [placesBelow, walkPtr, hb] <;> grind
  | cons i is ih =>
    by_cases hb : b = 0
    · cases depth <;> simp +contextual [hb, walkPtr_zero, placesBelow, eq_comm]
    cases depth with
    | zero => simp [placesBelow, hb]
    | succ depth =>
      have hbelow := @ih depth (ptrAt (data b) i)
      simp [placesBelow, walkPtr, hb, hbelow]
      tauto

/-- The places of an inode and the blocks there. -/
def inodePlaces (fs : Fs) (data : Nat → Buf) (ino : Inode) : List (PtrSlot × Nat) :=
  (range 15).flatMap fun r =>
    (placesBelow fs data (r - 11) (ino.ptr r)).map fun q => ((r, q.1), q.2)

theorem mem_inodePlaces {ino : Inode} {σ : PtrSlot} {b : Nat} :
    (σ, b) ∈ inodePlaces fs data ino ↔ SlotOk fs σ ∧ ref data ino σ = b ∧ b ≠ 0 := by
  obtain ⟨r, is⟩ := σ
  simp only [inodePlaces, mem_flatMap, mem_range, mem_map, Prod.mk.injEq]
  constructor
  · rintro ⟨r', hr, ⟨is', b'⟩, hmem, ⟨rfl, rfl⟩, rfl⟩
    obtain ⟨h1, h2, h3, h4⟩ := mem_placesBelow.mp hmem
    exact ⟨⟨hr, h1, h2⟩, h3, h4⟩
  · rintro ⟨⟨h0, h1, h2⟩, h3, h4⟩
    exact ⟨r, h0, (is, b), mem_placesBelow.mpr ⟨h1, h2, h3, h4⟩, ⟨rfl, rfl⟩, rfl⟩

/-- All places of the file system. -/
def allPlaces (fs : Fs) (v : View) : List ((Nat × PtrSlot) × Nat) :=
  (range (fs.groups * fs.inodesPerGroup + 1)).flatMap fun x =>
    match logical fs v x with
    | some ino => (inodePlaces fs v.data ino).map fun q => ((x, q.1), q.2)
    | none => []

theorem validIno_le {x : Nat} (h : fs.ValidIno x) : x < fs.groups * fs.inodesPerGroup + 1 :=
  Nat.lt_succ_of_le h.2

theorem mem_allPlaces {x : Nat} {σ : PtrSlot} {b : Nat} :
    ((x, σ), b) ∈ allPlaces fs v ↔ At fs (logical fs v) v.data x σ b := by
  simp only [allPlaces, mem_flatMap, mem_range]
  constructor
  · rintro ⟨y, _, hmem⟩
    cases hy : logical fs v y with
    | none =>
      rw [hy] at hmem
      cases hmem
    | some ino =>
      rw [hy] at hmem
      obtain ⟨⟨τ, c⟩, hq, heq⟩ := mem_map.mp hmem
      obtain ⟨⟨rfl, rfl⟩, rfl⟩ : (y = x ∧ τ = σ) ∧ c = b := by simpa using heq
      exact ⟨ino, hy, mem_inodePlaces.mp hq⟩
  · rintro ⟨ino, hx, h⟩
    have hvalid := (live_iff.mp (logical_some hx).1).1
    refine ⟨x, validIno_le hvalid, ?_⟩
    rw [hx]
    exact mem_map.mpr ⟨(σ, b), mem_inodePlaces.mpr h, rfl⟩

/-! ## Directories -/

instance (fs : Fs) (b : Buf) (off : Nat) : Decidable (RecOk fs b off) :=
  decidable_of_iff (8 ≤ (Dirent.at b off).recLen ∧ off + (Dirent.at b off).recLen ≤ fs.blockSize ∧
    ((Dirent.at b off).inode ≠ 0 →
      roundup4 (8 + nameBytes fs b off) ≤ (Dirent.at b off).recLen))
    ⟨fun ⟨h1, h2, h3⟩ => ⟨h1, h2, h3⟩, fun ⟨h1, h2, h3⟩ => ⟨h1, h2, h3⟩⟩

/-- Whether records tile the rest of a block. -/
def tilesCheck (fs : Fs) (b : Buf) : Nat → Nat → Bool
  | 0, off => off == fs.blockSize
  | fuel + 1, off =>
    off == fs.blockSize ||
      (decide (RecOk fs b off) && tilesCheck fs b fuel (off + (Dirent.at b off).recLen))

theorem tiles_of_check {b : Buf} : ∀ {fuel off : Nat}, tilesCheck fs b fuel off = true →
    ∃ l, Tiles fs b off l fs.blockSize
  | 0, off, h => by
    obtain rfl := beq_iff_eq.mp h
    exact ⟨[], Tiles.nil _⟩
  | fuel + 1, off, h => by
    rcases Bool.or_eq_true_iff.mp h with h | h
    · obtain rfl := beq_iff_eq.mp h
      exact ⟨[], Tiles.nil _⟩
    · obtain ⟨hrec, hrest⟩ := Bool.and_eq_true_iff.mp h
      obtain ⟨l, hl⟩ := tiles_of_check hrest
      exact ⟨off :: l, Tiles.cons (of_decide_eq_true hrec) hl⟩

/-- Whether a directory is well formed. -/
def dirCheck (fs : Fs) (data : Nat → Buf) (ino : Inode) : Bool :=
  ino.isDir && decide (ino.size.toNat % fs.blockSize = 0) &&
    (range (dirBlocks fs ino)).all (fun i =>
      fileBlk fs data ino i == 0 || tilesCheck fs (data (fileBlk fs data ino i)) fs.maxRecords 0) &&
    (dirEntries fs data ino).all (fun e => e.name.length ≤ 255) &&
    (inodePlaces fs data ino).all fun q => slotIndex fs q.1 < dirBlocks fs ino ||
      fileSlot fs (slotIndex fs q.1) != some q.1

theorem dirOk_of_check {ino : Inode} (h : dirCheck fs data ino = true) :
    DirOk fs data ino := by
  unfold dirCheck at h
  simp only [Bool.and_eq_true, decide_eq_true_eq, all_eq_true, mem_range,
    Bool.or_eq_true, beq_iff_eq, bne_iff_ne] at h
  obtain ⟨⟨⟨⟨hdir, hsize⟩, hblocks⟩, hnames⟩, hbeyond⟩ := h
  refine ⟨⟨hdir, Nat.dvd_of_mod_eq_zero hsize, fun i hi h0 => ?_, fun i hi => ?_⟩, hnames⟩
  · obtain ⟨l, hl⟩ := tiles_of_check ((hblocks i hi).resolve_left h0)
    exact ⟨_, l, hl, rfl⟩
  · by_contra h0
    unfold fileBlk at h0
    cases hσ : fileSlot fs i with
    | none =>
      rw [hσ] at h0
      exact h0 rfl
    | some σ =>
      rw [hσ] at h0
      have hmem := hbeyond (σ, ref data ino σ) (mem_inodePlaces.mpr ⟨fileSlot_ok hσ, rfl, h0⟩)
      simp only [slotIndex_fileSlot hσ, hσ, ne_eq, not_true_eq_false, or_false] at hmem
      omega

/-! ## The checker -/

/-- Bitmaps and counters. -/
def bitsCheck (fs : Fs) (v : View) : Bool :=
  decide ((∀ g, g < fs.groups → (v.gd g).freeBlocksCount.toNat = v.freeIn fs g ∧
      (v.gd g).freeInodesCount.toNat = v.freeInodesIn fs g ∧
      (v.gd g).usedDirsCount.toNat = v.dirsIn fs g) ∧
    v.counts.freeBlocks.toNat = ∑ g ∈ Finset.range fs.groups, v.freeIn fs g ∧
    v.counts.freeInodes.toNat = ∑ g ∈ Finset.range fs.groups, v.freeInodesIn fs g)

/-- Directories and their entries. -/
def dirsCheck (fs : Fs) (v : View) (depth : Nat) : Bool :=
  let nodes := range (fs.groups * fs.inodesPerGroup + 1)
  let T := v.tree fs
  T.okCheck conv nodes depth &&
    nodes.all fun x => !v.liveDir fs x || (dirCheck fs v.data (v.inode x) &&
      decide ((v.inode x).linksCount.toNat = 2 + T.subdirs conv x) &&
      (T.ents x).all fun e => v.live fs e.2 && decide (conv.Named e.1 → fs.firstIno ≤ e.2))

/-- Allocated inodes: their sizes, names and link counts. -/
def inodesCheck (fs : Fs) (v : View) (depth : Nat) : Bool :=
  let nodes := range (fs.groups * fs.inodesPerGroup + 1)
  let T := v.tree fs
  (range fs.firstIno).all (fun x => !decide (fs.ValidIno x) || v.iused x) &&
    nodes.all fun x => !v.live fs x ||
      ((!(v.inode x).isReg || decide (inodeFileSize fs (v.inode x) < 2 ^ 41)) &&
        (decide (x < fs.firstIno) || (decide (x ∈ Tree.reached conv (T.edges conv nodes) depth) &&
          ((v.inode x).isDir || decide ((v.inode x).linksCount.toNat = T.refs fs.inodes x)))))

/-- Blocks and their owners. -/
def blocksCheck (fs : Fs) (sys : List Nat) (v : View) : Bool :=
  let owned := (allPlaces fs v).map Prod.snd
  decide owned.Nodup &&
  owned.all (fun b => v.bused b && decide (b ∉ sys ∧ b < fs.blocksCount)) &&
  (range (fs.groups * fs.blocksPerGroup)).all fun i =>
    let b := fs.firstDataBlock + i
    if b ∈ sys ∨ fs.blocksCount ≤ b then v.bused b else !v.bused b || decide (b ∈ owned)

/-- Whether the file system is consistent, with `sys` its own blocks and no inode deeper than
`depth`. -/
def fsck (fs : Fs) (sys : List Nat) (depth : Nat) (v : View) : Bool :=
  bitsCheck fs v && dirsCheck fs v depth && inodesCheck fs v depth && blocksCheck fs sys v

theorem sane_of_check (hbits : bitsCheck fs v = true)
    (hdirs : dirsCheck fs v depth = true) (hinodes : inodesCheck fs v depth = true) :
    Sane fs v ∧ DirLinks fs v := by
  obtain ⟨hgroups, _, hinodeTotal⟩ := of_decide_eq_true hbits
  simp only [dirsCheck, inodesCheck, Bool.and_eq_true, Bool.or_eq_true, all_eq_true,
    mem_range, Bool.not_eq_true', decide_eq_true_eq, decide_eq_false_iff_not] at hdirs hinodes
  obtain ⟨htree, hdirs⟩ := hdirs
  obtain ⟨hreserved, hinodes⟩ := hinodes
  have hlt : ∀ {x}, v.live fs x = true → x < fs.groups * fs.inodesPerGroup + 1 := fun hx =>
    validIno_le (live_iff.mp hx).1
  have hdir : ∀ {x}, v.liveDir fs x = true → _ := fun {x} hx =>
    (hdirs x (hlt (liveDir_iff.mp hx).1)).resolve_left (by simp [hx])
  have hino : ∀ {x}, v.live fs x = true → _ := fun {x} hx =>
    (hinodes x (hlt hx)).resolve_left (by simp [hx])
  have hents : ∀ x, (v.tree fs).ents x ≠ [] → v.liveDir fs x = true := by
    intro x hx
    by_contra hd
    exact hx (if_neg hd)
  have hentry : ∀ {x name y}, (name, y) ∈ (v.tree fs).ents x →
      v.live fs y = true ∧ (conv.Named name → fs.firstIno ≤ y) := fun {x name y} hy =>
    (hdir (hents x (ne_nil_of_mem hy))).2 (name, y) hy
  refine ⟨⟨⟨fun g hg => (hgroups g hg).2.1, hinodeTotal⟩, fun g hg => (hgroups g hg).2.2,
    fun x hx => dirOk_of_check (hdir hx).1.1, fun x hx hreg => ?_, ?_,
    fun x name y hy => (hentry hy).1, fun x hx hlt => ?_, fun x name y hn hy => (hentry hy).2 hn,
    fun x hx hge => ?_, fun x hx hd hge => ?_⟩, fun x hx => (hdir hx).1.2⟩
  · exact (hino hx).1.resolve_left (by simp [hreg])
  · exact Tree.ok_of_check hents (fun x hx => mem_range.mpr (hlt (liveDir_iff.mp hx).1)) htree
  · exact (hreserved x hlt).resolve_left fun h => h hx
  · exact Tree.reach_of_reached ((hino hx).2.resolve_left (by omega)).1
  · exact ((hino hx).2.resolve_left (by omega)).2.resolve_left (by simp [hd])

theorem world_of_check {G : Layout fs} {sys : List Nat} (hsys : ∀ b, G.sys b ↔ b ∈ sys)
    (hbits : bitsCheck fs v = true) (hblocks : blocksCheck fs sys v = true) :
    World G (logical fs v) v ∧ ∀ b, ¬ Leaked G (logical fs v) v b := by
  obtain ⟨hgroups, hblockTotal, _⟩ := of_decide_eq_true hbits
  simp only [blocksCheck, Bool.and_eq_true, decide_eq_true_eq, all_eq_true, mem_range] at hblocks
  obtain ⟨⟨hnodup, howned⟩, hrest⟩ := hblocks
  have hat : ∀ {x σ b}, At fs (logical fs v) v.data x σ b →
      ((x, σ), b) ∈ allPlaces fs v := mem_allPlaces.mpr
  have hown : ∀ {x σ b}, At fs (logical fs v) v.data x σ b → _ := fun {x σ b} h =>
    howned b (mem_map.mpr ⟨_, hat h, rfl⟩)
  -- the bits there are, as the checker goes through them
  have hbit : ∀ {b}, fs.HasBit b → _ := fun {b} hb => by
    have hi : b - fs.firstDataBlock < fs.groups * fs.blocksPerGroup := by
      have := (Nat.div_lt_iff_lt_mul G.blocksPerGroup_pos).mp hb.2
      exact this
    have := hrest _ hi
    rw [Nat.add_sub_cancel' hb.1] at this
    exact this
  refine ⟨⟨⟨fun h1 h2 => ?_, fun h => (hown h).1, fun h hs => (hown h).2.1 ((hsys _).mp hs),
    fun h => (hown h).2.2⟩, ⟨fun g hg => (hgroups g hg).1, hblockTotal⟩, ⟨fun b hb hs => ?_⟩⟩, ?_⟩
  · have heq := inj_on_of_nodup_map hnodup (hat h1) (hat h2) rfl
    exact Prod.mk.inj (Prod.mk.inj heq).1
  · have := hbit hb
    rw [if_pos (hs.imp_left (hsys b).mp)] at this
    exact this
  · rintro b ⟨hb, hlt, hused, hs, hnot⟩
    have := hbit hb
    rw [if_neg (not_or.mpr ⟨fun h => hs ((hsys b).mpr h), not_le.mpr hlt⟩), hused] at this
    obtain ⟨⟨⟨x, σ⟩, c⟩, hmem, rfl⟩ := mem_map.mp (of_decide_eq_true this)
    exact hnot ⟨x, σ, mem_allPlaces.mp hmem⟩

/-- **What passes the check is consistent.** -/
theorem consistent_of_fsck {G : Layout fs} {sys : List Nat}
    (hsys : ∀ b, G.sys b ↔ b ∈ sys) (h : fsck fs sys depth v = true) : Consistent G v := by
  simp only [fsck, Bool.and_eq_true] at h
  obtain ⟨⟨⟨hbits, hdirs⟩, hinodes⟩, hblocks⟩ := h
  obtain ⟨hsane, hlinks⟩ := sane_of_check hbits hdirs hinodes
  obtain ⟨hworld, hleak⟩ := world_of_check (G := G) hsys hbits hblocks
  exact ⟨⟨hsane, hworld⟩, hlinks, hleak⟩

/-- Whether there are regular files and directories only. -/
def plainCheck (fs : Fs) (v : View) : Bool :=
  (range (fs.groups * fs.inodesPerGroup + 1)).all fun x =>
    !v.live fs x || decide (x < fs.firstIno) || (v.inode x).isReg || (v.inode x).isDir

theorem plain_of_check (h : plainCheck fs v = true) : Plain fs v := by
  intro x hx hge
  simp only [plainCheck, all_eq_true, mem_range, Bool.or_eq_true, Bool.not_eq_true',
    decide_eq_true_eq] at h
  have := h x (validIno_le (live_iff.mp hx).1)
  rw [hx] at this
  simpa [not_lt.mpr hge] using this

end JuampiOs.Ext2
