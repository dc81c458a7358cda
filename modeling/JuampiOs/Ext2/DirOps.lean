import JuampiOs.Ext2.Dirs
import JuampiOs.Ext2.Grow

/-!
# Changing directories

`dir_add` gives a directory one more entry, in a record with room or in a block of its own;
`dir_remove` takes one entry out. Neither touches another inode. When `dir_add` fails it may
already have taken a block, which then stands nowhere (`dirAdd_spec`).
-/

namespace JuampiOs.Ext2

open Lib Function Buf View Spec UInt32 List

variable {fs : Fs} {G : Layout fs} {v v' : View} {I : Nat → Option Inode} {dir : Inode} {p : Nat}

/-! ## Storing to a block of a directory -/

variable {x b : Nat} {σ : PtrSlot}

section

variable (h : World G I v) (hb : At fs I v.data x σ b) (hleaf : σ.2.length = σ.1 - 11) (buf : Buf)
include h hb hleaf

theorem World.store_at (y : Nat) (τ : PtrSlot) (c : Nat) :
    At fs I (v.setData b buf).data y τ c ↔ At fs I v.data y τ c := by
  refine at_congr rfl (fun ρ d hd hlen => update_of_ne ?_ _ _) τ c
  rintro rfl
  obtain ⟨_, rfl⟩ := h.blocks.inj hb hd
  omega

theorem World.store :
    World G I (v.setData b buf) ∧ ∀ c, Leaked G I (v.setData b buf) c ↔ Leaked G I v c := by
  have hat := h.store_at hb hleaf buf
  refine ⟨h.of_at (BlocksKept.setData v b buf) fun hc => (hat _ _ _).mp hc, fun c => ?_⟩
  have hown : Owned fs I (v.setData b buf).data c ↔ Owned fs I v.data c :=
    exists_congr fun y => exists_congr fun τ => hat y τ c
  unfold Leaked
  rw [hown]
  rfl

theorem World.fileBlk_store {y : Nat} {ino : Inode} (hy : I y = some ino) (i : Nat) :
    fileBlk fs (v.setData b buf).data ino i = fileBlk fs v.data ino i := by
  unfold fileBlk
  cases hi : fileSlot fs i with
  | none => rfl
  | some τ =>
    refine ref_congr (fun ρ hρ hlen hρ0 => update_of_ne ?_ _ _) τ (fileSlot_ok hi)
    intro heq
    have hd : At fs I v.data y ρ b := (at_iff hy).mpr ⟨hρ, heq, heq ▸ hρ0⟩
    obtain ⟨_, rfl⟩ := h.blocks.inj hb hd
    omega

end

/-- `P` holds of every block of the directory that is not a hole. -/
def EachBlock (fs : Fs) (P : Buf → Prop) (data : Nat → Buf) (dir : Inode) : Prop :=
  ∀ i, i < dirBlocks fs dir → fileBlk fs data dir i ≠ 0 → P (data (fileBlk fs data dir i))

/-- Every record of the directory is a multiple of 4 bytes long. -/
def DirAligned (fs : Fs) (data : Nat → Buf) (dir : Inode) : Prop :=
  ∀ i, i < dirBlocks fs dir → fileBlk fs data dir i ≠ 0 → Aligned fs (data (fileBlk fs data dir i))

/-- What holds of directory `p` after its inode has become `dir'` and its entries `es`. -/
structure DirStep (G : Layout fs) (p : Nat) (I : Nat → Option Inode) (v : View) (dir dir' : Inode)
    (es : List Entry) (v' : View) : Prop extends Rewritten G p I v dir' v' where
  tiled : DirTiled fs v'.data dir'
  entries : dirEntries fs v'.data dir' = es
  shape : ∃ block blocks size, dir' = { dir with block := block, blocks := blocks, size := size }
  aligned : DirAligned fs v.data dir → DirAligned fs v'.data dir'

theorem DirStep.ok {dir' : Inode} {es : List Entry} (h : DirStep G p I v dir dir' es v')
    (hes : ShortNames es) : DirOk fs v'.data dir' :=
  ⟨h.tiled, h.entries.symm ▸ hes⟩

theorem DirTiled.store (hok : DirTiled fs v.data dir) (h : World G I v) (hx : I p = some dir)
    (hino : v.inode p = dir) {i : Nat} (hi : i < dirBlocks fs dir)
    (h0 : fileBlk fs v.data dir i ≠ 0) {buf : Buf} {es : List Entry} (hbuf : DirBlock fs buf es)
    (halign : Aligned fs (v.data (fileBlk fs v.data dir i)) → Aligned fs buf) :
    ∃ A B, dirEntries fs v.data dir =
        A ++ blockEntries fs (v.data (fileBlk fs v.data dir i)) ++ B ∧
      DirStep G p I v dir dir (A ++ es ++ B) (v.setData (fileBlk fs v.data dir i) buf) := by
  obtain ⟨σ, hσ, hat⟩ := at_fileBlk hx h0
  have hleaf := (fileSlot_leaf hσ).2
  have hblk := h.fileBlk_store hat hleaf buf hx
  obtain ⟨hworld, hleaked⟩ := h.store hat hleaf buf
  -- the other blocks of the directory are not stored to
  have hne : ∀ j, j ≠ i → fileBlk fs v.data dir j ≠ 0 →
      fileBlk fs v.data dir j ≠ fileBlk fs v.data dir i := fun j hji hj0 heq => by
    obtain ⟨τ, hτ, hatj⟩ := at_fileBlk hx hj0
    rw [heq] at hatj
    obtain ⟨_, rfl⟩ := h.blocks.inj hat hatj
    exact hji (fileSlot_inj hτ hσ)
  have hself : fileBlock fs (v.setData (fileBlk fs v.data dir i) buf).data dir i = buf := by
    unfold fileBlock
    rw [hblk, if_neg h0]
    exact update_self ..
  have hother : ∀ j, j ≠ i →
      fileBlock fs (v.setData (fileBlk fs v.data dir i) buf).data dir j =
        fileBlock fs v.data dir j := fun j hji =>
    fileBlock_congr (hblk j) fun hj0 => update_of_ne (hne j hji hj0) ..
  obtain ⟨A, B, hA, hB⟩ := range_flatMap_update
    (f := fun j => blockEntries fs (fileBlock fs v.data dir j))
    (g := fun j => blockEntries fs
      (fileBlock fs (v.setData (fileBlk fs v.data dir i) buf).data dir j)) hi
    fun j hji => by simp only [hother j hji]
  have hstored : ∀ P : Buf → Prop, (P (v.data (fileBlk fs v.data dir i)) → P buf) →
      EachBlock fs P v.data dir →
        EachBlock fs P (v.setData (fileBlk fs v.data dir i) buf).data dir := by
    intro P hP hall j hj hj0
    rw [hblk] at hj0 ⊢
    by_cases hji : j = i
    · subst hji
      rw [setData_data, update_self]
      exact hP (hall j hj hj0)
    · rw [setData_data, update_of_ne (hne j hji hj0)]
      exact hall j hj hj0
  have hI := update_self_of_eq hx
  refine ⟨A, B, ?_, ⟨⟨hI.symm ▸ hworld, fun c hc => (hleaked c).mp (hI ▸ hc),
    InodesKept.setData _ _ _, ?_, fun y τ c hy hc => update_of_ne ?_ _ _⟩,
    ⟨hok.isDir, hok.size, hstored (∃ es, DirBlock fs · es) (fun _ => ⟨es, hbuf⟩) hok.blocks,
      fun j hj => ?_⟩, ?_, ⟨_, _, _, rfl⟩, hstored _ halign⟩⟩
  · have hold : fileBlock fs v.data dir i = v.data (fileBlk fs v.data dir i) := if_neg h0
    unfold dirEntries
    rw [hA, hold]
  · rw [← hino]
    exact (update_eq_self p v.inode).symm
  · rintro rfl
    exact hy (h.blocks.inj hc hat).1
  · rw [hblk]
    exact hok.beyond j hj
  · unfold dirEntries
    rw [hB, hself, hbuf.entries G.eight_dvd]

/-- What a loop over blocks `bi` to `bi + fuel` of a directory does that stores the first one
`edit` has a new version of. -/
def EditedFirst (fs : Fs) (edit : Buf → Option Buf) (v : View) (dir : Inode) (fuel bi : Nat)
    (done : Bool) (v' : View) : Prop :=
  (done = false ∧ v' = v ∧ ∀ i, bi ≤ i → i < bi + fuel → fileBlk fs v.data dir i ≠ 0 →
    edit (v.data (fileBlk fs v.data dir i)) = none) ∨
  (done = true ∧ ∃ i b, i < bi + fuel ∧ fileBlk fs v.data dir i ≠ 0 ∧
    (∀ j, bi ≤ j → j < i → fileBlk fs v.data dir j ≠ 0 →
      edit (v.data (fileBlk fs v.data dir j)) = none) ∧
    edit (v.data (fileBlk fs v.data dir i)) = some b ∧
    v' = v.setData (fileBlk fs v.data dir i) (b.take fs.blockSize))

theorem editedFirst_spec {edit : Buf → Option Buf} {loop : Nat → Nat → Io Bool}
    (hm : Mapped G v dir) (hzero : ∀ bi, loop 0 bi = pure false)
    (hsucc : ∀ fuel bi, loop (fuel + 1) bi = do
      let phys ← blockOf fs dir bi
      if phys = 0 then loop fuel (bi + 1)
      else
        match ← readBlock phys with
        | none => loop fuel (bi + 1)
        | some block =>
          match edit block with
          | none => loop fuel (bi + 1)
          | some block =>
            let _ ← writeBlock phys block
            return true) (fuel : Nat) :
    ∀ bi, G.Spec (loop fuel bi) v (EditedFirst fs edit v dir fuel bi) := by
  induction fuel with
  | zero =>
    intro bi
    rw [hzero]
    exact ret (.inl ⟨rfl, rfl, fun i h1 h2 => by omega⟩)
  | succ fuel ih =>
    intro bi
    -- when block `bi` is not edited the loop goes on
    have hskip : (fileBlk fs v.data dir bi ≠ 0 → edit (v.data (fileBlk fs v.data dir bi)) = none) →
        G.Spec (loop fuel (bi + 1)) v (EditedFirst fs edit v dir (fuel + 1) bi) := by
      intro hnone
      refine weaken (ih (bi + 1)) fun done v' hr => ?_
      rcases hr with ⟨hd, hv, hall⟩ | ⟨hd, i, b, h2, h0, hall, h3⟩
      · refine .inl ⟨hd, hv, fun i h1 h2 h0 => ?_⟩
        by_cases hi : i = bi
        · subst hi
          exact hnone h0
        · exact hall i (by omega) (by omega) h0
      · refine .inr ⟨hd, i, b, by omega, h0, fun j h1 h2 hj0 => ?_, h3⟩
        by_cases hj : j = bi
        · subst hj
          exact hnone hj0
        · exact hall j (by omega) h2 hj0
    rw [hsucc]
    refine Exact.seq (blockOf_exact hm bi) ?_
    by_cases h0 : fileBlk fs v.data dir bi = 0
    · rw [if_pos h0]
      exact hskip fun hne => absurd h0 hne
    rw [if_neg h0]
    have hdata := (hm.isData_fileBlk h0).1
    refine Exact.seq (readBlock_data hdata) ?_
    dsimp only
    cases hedit : edit (v.data (fileBlk fs v.data dir bi)) with
    | none => exact hskip fun _ => hedit
    | some b =>
      refine Exact.seq (writeBlock_data hdata b) ?_
      exact ret (.inr ⟨rfl, bi, b, by omega, h0, fun j h1 h2 => by omega, hedit, rfl⟩)

/-- Record `o` of block `i` is the first one of the directory that `P` holds of. -/
structure FirstRec (fs : Fs) (P : Buf → Nat → Bool) (data : Nat → Buf) (dir : Inode) (i o : Nat) :
    Prop where
  lt : i < dirBlocks fs dir
  ne : fileBlk fs data dir i ≠ 0
  found : ∃ l, Tiles fs (data (fileBlk fs data dir i)) 0 l fs.blockSize ∧
    l.find? (P (data (fileBlk fs data dir i))) = some o
  first : ∀ j, j < i → fileBlk fs data dir j ≠ 0 → ∀ l,
    Tiles fs (data (fileBlk fs data dir j)) 0 l fs.blockSize →
      l.find? (P (data (fileBlk fs data dir j))) = none

/-- The first record that `P` holds of has no name that is too long. -/
def FirstShort (fs : Fs) (P : Buf → Nat → Bool) (data : Nat → Buf) (dir : Inode) : Prop :=
  ∀ i o, FirstRec fs P data dir i o → Short fs (data (fileBlk fs data dir i)) o

section

variable {P : Buf → Nat → Bool} {data : Nat → Buf} {i o : Nat}

theorem FirstRec.le (h : FirstRec fs P data dir i o) {i' o' : Nat}
    (h' : FirstRec fs P data dir i' o') : i' ≤ i := by
  by_contra hlt
  obtain ⟨l, hl, hfind⟩ := h.found
  rw [h'.first i (by omega) h.ne l hl] at hfind
  cases hfind

/-- There is one first record at most. -/
theorem FirstRec.firstShort (h : FirstRec fs P data dir i o)
    (hshort : Short fs (data (fileBlk fs data dir i)) o) : FirstShort fs P data dir := by
  intro i' o' h'
  obtain rfl := Nat.le_antisymm (h.le h') (h'.le h)
  obtain ⟨l, hl, hfind⟩ := h.found
  obtain ⟨l', hl', hfind'⟩ := h'.found
  rw [hl.unique hl', hfind'] at hfind
  exact Option.some.inj hfind ▸ hshort

/-- The entries of a well-formed directory are short, whichever comes first. -/
theorem DirOk.firstShort (G : Layout fs) (hok : DirOk fs data dir) : FirstShort fs P data dir := by
  intro i o h hlive
  obtain ⟨l, hl, hfind⟩ := h.found
  rw [← entryAt_length]
  apply hok.names
  refine mem_flatMap.mpr ⟨i, mem_range.mpr h.lt, ?_⟩
  unfold fileBlock
  rw [if_neg h.ne, DirBlock.entries ⟨l, hl, rfl⟩ G.eight_dvd]
  have hmem := mem_of_find?_eq_some hfind
  exact mem_map_of_mem (mem_filter.mpr ⟨hmem, decide_eq_true hlive⟩)

end

/-! ## Adding an entry -/

/-- Whether a block has room does not depend on the entry, only on the length of its name. -/
theorem addInBlock_none_congr (b : Buf) (name : List UInt8) (child child' : Nat)
    (type type' : UInt8) : ∀ fuel off, addInBlock fs b name child type fuel off = none →
      addInBlock fs b name child' type' fuel off = none
  | 0, _, _ => rfl
  | fuel + 1, off, h => by
    unfold addInBlock at h ⊢
    by_cases hle : off + 8 ≤ fs.blockSize
    swap
    · rw [if_neg hle]
    rw [if_pos hle] at h ⊢
    by_cases hrec : (Dirent.at b off).recLen < 8
    · rw [if_pos hrec]
    rw [if_neg hrec] at h ⊢
    by_cases hroom : roundup4 (8 + name.length) ≤ u32 (2 ^ 32 + (Dirent.at b off).recLen -
        (if (Dirent.at b off).inode = 0 then 0 else roundup4 (8 + (Dirent.at b off).nameLen)))
    · rw [if_pos hroom] at h
      split at h <;> cases h
    · rw [if_neg hroom] at h ⊢
      exact addInBlock_none_congr b name child child' type type' fuel _ h

/-- No block of the directory has room for an entry with this name. -/
def DirFull (fs : Fs) (data : Nat → Buf) (dir : Inode) (name : List UInt8) : Prop :=
  ∀ i, i < dirBlocks fs dir → fileBlk fs data dir i ≠ 0 →
    addInBlock fs (data (fileBlk fs data dir i)) name 0 0 fs.maxRecords 0 = none

section

variable {name : List UInt8} {child : Nat} {type : UInt8}

/-- When a directory of `n` blocks cannot grow once it has taken a free block. -/
def GrowFails (fs : Fs) (v : View) (dir : Inode) (n : Nat) : Prop :=
  12 + fs.per ≤ n ∨
    (12 ≤ n ∧ dir.ptr 12 = 0 ∧ ∀ b c, v.Free fs b → v.Free fs c → b = c)

/-- Why a directory cannot take another entry: none of its blocks has room, and there is no block
to be had or no place for it. -/
def NoRoom (fs : Fs) (v : View) (dir : Inode) (name : List UInt8) : Prop :=
  DirFull fs v.data dir name ∧
    ((∀ b, ¬ v.Free fs b) ∨ GrowFails fs v dir (dirBlocks fs dir))

theorem cannotMap_iff {blk n : Nat} (hfree : v.Free fs blk) :
    CannotMap fs (v.allocBlock fs blk) dir n ↔ GrowFails fs v dir n := by
  have hiff : ∀ b, (v.allocBlock fs blk).Free fs b ↔ v.Free fs b ∧ b ≠ blk := fun b => by
    unfold Free
    by_cases hb : b = blk
    · subst hb
      have hused : (v.allocBlock fs b).bused b = true := update_self ..
      simp [hused]
    · have hsame : (v.allocBlock fs blk).bused b = v.bused b := update_of_ne hb ..
      simp [hsame, hb]
  refine or_congr_right (and_congr_right fun _ => and_congr_right fun _ => ?_)
  constructor
  · intro hnone b c hb hc
    have hone : ∀ d, v.Free fs d → d = blk := fun d hd => by
      by_contra hne
      exact hnone d ((hiff d).mpr ⟨hd, hne⟩)
    rw [hone b hb, hone c hc]
  · intro hone b hb
    obtain ⟨hb, hne⟩ := (hiff b).mp hb
    exact hne (hone b blk hb hfree)

theorem dirBlocks_of_size (G : Layout fs) (hd : dir.isDir = true) {k : Nat}
    (hk : dir.size.toNat = k * fs.blockSize) : dirBlocks fs dir = k := by
  have hpos := G.blockSize_pos
  unfold dirBlocks
  rw [inodeFileSize_dir hd, hk, Nat.mul_comm, Nat.add_sub_assoc hpos, Nat.mul_add_div hpos,
    Nat.div_eq_of_lt (by omega), add_zero]

theorem Grown.store {ino ino₁ : Inode} (hg : Grown G x I v ino ino₁ v')
    (hb : At fs (update I x (some ino₁)) v'.data x σ b)
    (hleaf : σ.2.length = σ.1 - 11) (hnew : ∀ i, fileBlk fs v.data ino i ≠ 0 →
      fileBlk fs v.data ino i ≠ b) (buf : Buf) : Grown G x I v ino ino₁ (v'.setData b buf) := by
  obtain ⟨hworld, hleaked⟩ := hg.world.store hb hleaf buf
  have hblk := hg.world.fileBlk_store hb hleaf buf (update_self x (some ino₁) I)
  refine ⟨hworld, fun c hc => hg.leaked c ((hleaked c).mp hc),
    hg.kept.trans (InodesKept.setData _ _ _), hg.inode, hg.shape, fun y τ c hy hc => ?_,
    fun i hi => ?_⟩
  · have hc' : At fs (update I x (some ino₁)) v'.data y τ c :=
      (at_congr (update_of_ne hy ..) (fun ρ d hd _ => hg.frame y ρ d hy hd) τ c).mpr hc
    have hne : c ≠ b := fun heq => hy (hg.world.blocks.inj (heq ▸ hc') hb).1
    exact (update_of_ne hne ..).trans (hg.frame y τ c hy hc)
  · obtain ⟨h1, h2⟩ := hg.keep i hi
    exact ⟨(hblk i).trans h1, (update_of_ne (hnew i hi) ..).trans h2⟩

section

variable (h : World G I v) (hx : I p = some dir) (hino : v.inode p = dir) (hvalid : fs.ValidIno p)
  (hok : DirTiled fs v.data dir) (hname : name.length < 256) (hchild : child < 2 ^ 32)
  (hpos : child ≠ 0)
include h hx hvalid hok hname hchild hpos

theorem dirGrow_spec :
    G.Spec (dirGrow fs p dir name child type) v fun r v' =>
      (r.1 = true ∧ ¬ ((∀ b, ¬ v.Free fs b) ∨ GrowFails fs v dir (dirBlocks fs dir)) ∧
        DirStep G p I v dir r.2 (dirEntries fs v.data dir ++ [⟨name, child, typeByte fs type⟩]) v') ∨
      (r.1 = false ∧ r.2 = dir ∧ ((v' = v ∧ ∀ b, ¬ v.Free fs b) ∨
        ∃ blk, v.Free fs blk ∧ v' = v.allocBlock fs blk ∧
          GrowFails fs v dir (dirBlocks fs dir))) := by
  have hge := G.blockSize.ge
  have hle := G.blockSize_le
  have hpos' := G.blockSize_pos
  have hn := hok.dirBlocks_eq G
  have hsize32 := dir.size.toNat_lt
  refine seq (allocBlock_spec h.bits h.reserved) ?_
  rintro blk w (⟨rfl, rfl, hfull⟩ | ⟨hne, hfree, rfl⟩)
  · rw [if_pos rfl]
    exact ret (Or.inr ⟨rfl, rfl, Or.inl ⟨rfl, hfull⟩⟩)
  rw [if_neg hne, inodeFileSize_dir hok.isDir,
    u32_of_lt (Nat.lt_of_le_of_lt (Nat.div_le_self _ _) hsize32), ← hn]
  have hleak := (h.leaked_fresh hfree zero blk).mpr (Or.inr rfl)
  have hempty : fileBlk fs (v.fresh fs blk zero).data dir (dirBlocks fs dir) = 0 := by
    rw [h.fileBlk_fresh hfree zero hx]
    exact hok.beyond _ (Nat.le_refl _)
  refine seq (setBlockOf_spec (h.fresh hfree zero) hx hleak hempty) ?_
  rintro ⟨ok, dir1⟩ w (⟨hret, hsame, rfl, hcannot⟩ | ⟨hret, hcan, hp⟩)
  · subst hret hsame
    exact ret (Or.inr ⟨rfl, rfl, Or.inr ⟨blk, hfree, rfl, (cannotMap_iff hfree).mp hcannot⟩⟩)
  subst hret
  have hgrows : ¬ GrowFails fs v dir (dirBlocks fs dir) := fun hf =>
    hcan ((cannotMap_iff hfree).mpr hf)
  have hgrown := Grown.of_placed h hx hfree _ (hok.beyond _ (Nat.le_refl _)) hp
  -- the new block is a leaf of the grown directory
  have hblkAt : fileBlk fs w.data dir1 (dirBlocks fs dir) = blk := by rw [hp.blk, if_pos rfl]
  have hx1 : update I p (some dir1) p = some dir1 := update_self ..
  have hblk0 : fileBlk fs w.data dir1 (dirBlocks fs dir) ≠ 0 := by rw [hblkAt]; exact hne
  obtain ⟨σ, hσ, hat⟩ := at_fileBlk hx1 hblk0
  rw [hblkAt] at hat
  have hleaf := (fileSlot_leaf hσ).2
  refine Exact.seq (writeBlock_data (hgrown.world.blocks.isData hat) _) ?_
  refine Exact.seq (writeInode_exact hvalid _) ?_
  refine ret (Or.inl ⟨rfl, fun hno => hno.elim (fun hnone => hnone blk hfree) hgrows, ?_⟩)
  generalize hbuf : (putDirent zero 0 child fs.blockSize name (typeByte fs type)).take
    fs.blockSize = buf
  obtain ⟨hdirBlock, haligned⟩ : DirBlock fs buf [⟨name, child, typeByte fs type⟩] ∧
      Aligned fs buf := by
    rw [← hbuf]
    obtain ⟨hnew, hal⟩ := grown_dirBlock hle hge hname hchild hpos
    exact ⟨hnew.take, hnew.aligned_take G.eight_dvd (hal G.eight_dvd)⟩
  have hgrown2 := hgrown.store hat hleaf (fun i hi heq => by
    obtain ⟨τ, _, hati⟩ := at_fileBlk hx hi
    exact h.not_owned hfree ⟨p, τ, heq ▸ hati⟩) buf
  obtain ⟨block, blocks, hshape⟩ := hp.shape
  simp only at hshape
  -- the size stays far from wrapping
  have hsmall : dirBlocks fs dir < 12 + fs.per := by
    by_contra hbig
    exact hgrows (Or.inl (by omega))
  have hsize : dir.size.toNat = dirBlocks fs dir * fs.blockSize := by
    rw [hn, Nat.div_mul_cancel hok.size]
  have hbound : (dirBlocks fs dir + 1) * fs.blockSize < 2 ^ 32 := by
    have hper := G.per_le
    have : (dirBlocks fs dir + 1) * fs.blockSize ≤ 8205 * 32768 :=
      Nat.mul_le_mul (by omega) hle
    omega
  rw [Nat.add_mul, Nat.one_mul, ← hsize] at hbound
  obtain ⟨dir2, hdir2⟩ : ∃ dir2 : Inode, { dir1 with size := dir1.size + ofNat fs.blockSize } =
    dir2 := ⟨_, rfl⟩
  rw [hdir2]
  have hsize' : dir2.size.toNat = (dirBlocks fs dir + 1) * fs.blockSize := by
    rw [← hdir2, hshape, UInt32.toNat_add,
      UInt32.toNat_ofNat_of_lt' (show fs.blockSize < 2 ^ 32 by omega),
      Nat.mod_eq_of_lt hbound, Nat.add_mul, Nat.one_mul, ← hsize]
  have hisDir : dir2.isDir = true := by
    rw [← hdir2, hshape]
    exact hok.isDir
  have hcount := dirBlocks_of_size G hisDir hsize'
  -- its logical blocks are the old ones and the new one
  have hblk : ∀ i, fileBlk fs (update w.data blk buf) dir2 i =
      if i = dirBlocks fs dir then blk else fileBlk fs v.data dir i := fun i => by
    have h1 := hgrown.world.fileBlk_store hat hleaf buf hx1 i
    have h2 := hp.blk i
    rw [h.fileBlk_fresh hfree zero hx] at h2
    rw [← hdir2]
    exact h1.trans h2
  have heach : ∀ P : Buf → Prop, P buf → EachBlock fs P v.data dir →
      EachBlock fs P (update w.data blk buf) dir2 := by
    intro P hP hall i hi hi0
    rw [hcount] at hi
    rw [hblk] at hi0 ⊢
    by_cases hin : i = dirBlocks fs dir
    · rw [if_pos hin, update_self]
      exact hP
    · rw [if_neg hin] at hi0 ⊢
      have hkeep : update w.data blk buf _ = _ := (hgrown2.keep i hi0).2
      rw [hkeep]
      exact hall i (by omega) hi0
  refine ⟨hgrown2.write (by rw [← hdir2]; rfl), ⟨hisDir, ⟨_, hsize'.trans (Nat.mul_comm ..)⟩,
    heach (∃ es, DirBlock fs · es) ⟨_, hdirBlock⟩ hok.blocks, fun i hi => ?_⟩, ?_, ?_,
    heach _ haligned⟩
  · rw [hcount] at hi
    refine (hblk i).trans ?_
    rw [if_neg (by omega)]
    exact hok.beyond i (by omega)
  · simp only [setInode_data, setData_data]
    unfold dirEntries
    rw [hcount, range_succ, flatMap_append, flatMap_singleton]
    congr 1
    · refine flatMap_congr fun i hi => ?_
      have hin : i ≠ dirBlocks fs dir := by
        have := mem_range.mp hi
        omega
      rw [fileBlock_congr ((hblk i).trans (if_neg hin)) fun hi0 => (hgrown2.keep i hi0).2]
    · unfold fileBlock
      rw [hblk, if_pos rfl, if_neg hne, update_self, hdirBlock.entries G.eight_dvd]
  · exact ⟨block, blocks, _, by rw [← hdir2, hshape]⟩

include hino in
/-- **`dir_add`** inserts one entry, and keeps the directory tiled exactly if the record it puts the
new one into has no name that is too long. It fails when no block has room and the directory cannot
grow, and then it may have taken a block. -/
theorem dirAdd_spec :
    G.Spec (dirAdd fs p dir name child type) v fun r v' =>
      (r.1 = true ∧ ¬ NoRoom fs v dir name ∧
        (DirTiled fs v'.data r.2 → FirstShort fs (HasRoom · name ·) v.data dir) ∧
        (FirstShort fs (HasRoom · name ·) v.data dir →
          ∃ es₁ es₂, dirEntries fs v.data dir = es₁ ++ es₂ ∧
            DirStep G p I v dir r.2 (es₁ ++ ⟨name, child, typeByte fs type⟩ :: es₂) v')) ∨
      (r.1 = false ∧ r.2 = dir ∧ DirFull fs v.data dir name ∧ ((v' = v ∧ ∀ b, ¬ v.Free fs b) ∨
        ∃ blk, v.Free fs blk ∧ v' = v.allocBlock fs blk ∧
          GrowFails fs v dir (dirBlocks fs dir))) := by
  have hm : Mapped G v dir := h.blocks.mapped hx
  have hnofind : ∀ {b l}, Tiles fs b 0 l fs.blockSize →
      addInBlock fs b name child type fs.maxRecords 0 = none →
        l.find? (fun o => HasRoom b name o) = none := by
    intro b l hl hnone
    rw [addInBlock_eq name child type hl _ (maxRecords_ge G.eight_dvd)] at hnone
    exact Option.map_eq_none_iff.mp hnone
  refine seq (editedFirst_spec hm (fun _ => rfl) (fun _ _ => rfl) _ 0) ?_
  rintro done w (⟨rfl, hw, hnone⟩ | ⟨rfl, i, b, hi, h0, hfirst, hadd, rfl⟩)
  · obtain rfl := hw.symm
    have hfull : DirFull fs v.data dir name := fun i hi h0 =>
      addInBlock_none_congr _ _ _ _ _ _ _ _ (hnone i (Nat.zero_le i) (by omega) h0)
    refine weaken (dirGrow_spec h hx hvalid hok hname hchild hpos) fun r w hr => ?_
    rcases hr with ⟨hret, hgrows, hstep⟩ | ⟨hret, hsame, hfail⟩
    · refine .inl ⟨hret, fun hboth => hgrows hboth.2, fun _ i o hrec => ?_, fun _ =>
        ⟨dirEntries fs v.data dir, [], (append_nil _).symm, hstep⟩⟩
      obtain ⟨l, hl, hfind⟩ := hrec.found
      have := hnofind hl (hnone i (Nat.zero_le i) (by have := hrec.lt; omega) hrec.ne)
      rw [hfind] at this
      cases this
    · exact .inr ⟨hret, hsame, hfull, hfail⟩
  · rw [zero_add] at hi
    dsimp only at hadd
    refine ret (.inl ⟨rfl, fun hboth => ?_, ?_⟩)
    · have := addInBlock_none_congr (v.data (fileBlk fs v.data dir i)) name 0 child 0 type
        fs.maxRecords 0 (hboth.1 i hi h0)
      rw [hadd] at this
      cases this
    obtain ⟨_, l, hl, rfl⟩ := hok.blocks i hi h0
    rw [addInBlock_eq name child type hl _ (maxRecords_ge G.eight_dvd)] at hadd
    obtain ⟨o, hfind, rfl⟩ := Option.map_eq_some_iff.mp hadd
    have hrec : FirstRec fs (HasRoom · name ·) v.data dir i o := ⟨hi, h0, ⟨l, hl, hfind⟩,
      fun j hj hj0 l' hl' => hnofind hl' (hfirst j (Nat.zero_le j) hj hj0)⟩
    constructor
    · -- a tiling of the block that is stored is one of the block `dir_add` has changed
      intro htiled
      refine hrec.firstShort ?_
      by_contra hlong
      obtain ⟨σ, hσ, hat⟩ := at_fileBlk hx h0
      obtain ⟨_, l', hl', _⟩ := htiled.blocks i hi (by
        rw [h.fileBlk_store hat (fileSlot_leaf hσ).2 _ hx]
        exact h0)
      rw [h.fileBlk_store hat (fileSlot_leaf hσ).2 _ hx, setData_data, update_self] at hl'
      have hroom := find?_some hfind
      obtain ⟨pre, post, rfl⟩ := append_of_mem (mem_of_find?_eq_some hfind)
      exact insertRec_not_tiles hl (of_decide_eq_true hroom) hlong
        (hl'.congr fun k _ hk => (take_of_lt _ hk).symm).tiles
    · intro hshort
      obtain ⟨es₁, es₂, hsplit, hnew, hal⟩ := insertRec_dirBlock G.blockSize_le G.eight_dvd hl hfind
        (hshort i o hrec) hname hchild hpos
      obtain ⟨A, B, hAB, hstep⟩ := hok.store h hx hino hi h0 hnew.take
        fun hold => hnew.aligned_take G.eight_dvd (hal hold)
      refine ⟨A ++ es₁, es₂ ++ B, ?_, ?_⟩
      · rw [hAB, DirBlock.entries ⟨l, hl, rfl⟩ G.eight_dvd, hsplit]
        simp
      · rw [show A ++ (es₁ ++ ⟨name, child, typeByte fs type⟩ :: es₂) ++ B =
          A ++ es₁ ++ ⟨name, child, typeByte fs type⟩ :: (es₂ ++ B) by simp] at hstep
        exact hstep

end

end

/-! ## Taking an entry out -/

/-- **`dir_remove`** takes the entry of the first record out that it matches, and fails only when
there is no entry with the name. -/
theorem dirRemove_spec {name : List UInt8} (h : World G I v) (hx : I p = some dir)
    (hino : v.inode p = dir) (hok : DirTiled fs v.data dir) :
    G.Spec (dirRemove fs dir name) v fun done v' =>
      (done = false ∧ v' = v ∧
        ∀ e ∈ dirEntries fs v.data dir, e.name.length ≤ 255 → e.name ≠ name) ∨
      (done = true ∧ ∃ es₁ e es₂, dirEntries fs v.data dir = es₁ ++ e :: es₂ ∧
        (e.name = name ↔ FirstShort fs (Matches · name ·) v.data dir) ∧
        DirStep G p I v dir dir (es₁ ++ es₂) v') := by
  have hm : Mapped G v dir := h.blocks.mapped hx
  have hblock : ∀ {b l}, Tiles fs b 0 l fs.blockSize → _ := fun {b l} =>
    removeInBlock_dirBlock (b := b) (l := l) name G.blockSize_le G.eight_dvd
  have hnofind : ∀ {b l}, Tiles fs b 0 l fs.blockSize →
      removeInBlock fs b name fs.maxRecords 0 none = none →
        l.find? (fun o => Matches b name o) = none := by
    intro b l hl hnone
    rcases hblock hl with ⟨_, hfind⟩ | ⟨_, _, _, _, hsome, _⟩
    · exact hfind
    · rw [hnone] at hsome
      cases hsome
  refine weaken (editedFirst_spec hm (fun _ => rfl) (fun _ _ => rfl) _ 0) fun done w hr => ?_
  rcases hr with ⟨hd, hv, hnone⟩ | ⟨hd, i, b, hi, h0, hfirst, hrem, hv⟩
  · refine .inl ⟨hd, hv, fun e he hlen hname => ?_⟩
    obtain ⟨i, _, hi, h0, ⟨l, hl, rfl⟩, hmem⟩ := hok.mem_block G he
    obtain ⟨o, ho, rfl⟩ := mem_map.mp hmem
    obtain ⟨ho, hlive⟩ := mem_filter.mp ho
    rw [entryAt_length] at hlen
    have hfind := hnofind hl (hnone i (Nat.zero_le i) (by omega) h0)
    exact find?_eq_none.mp hfind o ho
      (decide_eq_true (matches_of_name (of_decide_eq_true hlive) hlen hname))
  · rw [zero_add] at hi
    dsimp only at hrem
    obtain ⟨_, l, hl, rfl⟩ := hok.blocks i hi h0
    rcases hblock hl with ⟨hnone, _⟩ | ⟨b', o, es₁, es₂, hsome, hfind, hsplit, hnew, hal⟩
    · rw [hnone] at hrem
      cases hrem
    obtain rfl : b' = b := Option.some.inj (hsome.symm.trans hrem)
    obtain ⟨A, B, hAB, hstep⟩ := hok.store h hx hino hi h0 hnew.take
      fun hold => hnew.aligned_take G.eight_dvd (hal hold)
    have hrec : FirstRec fs (Matches · name ·) v.data dir i o := ⟨hi, h0, ⟨l, hl, hfind⟩,
      fun j hj hj0 l' hl' => hnofind hl' (hfirst j (Nat.zero_le j) hj hj0)⟩
    have hmatch := find?_some hfind
    refine .inr ⟨hd, A ++ es₁, _, es₂ ++ B, ?_, (of_decide_eq_true hmatch).name_iff.trans
      ⟨hrec.firstShort, fun hshort => hshort i o hrec⟩, ?_⟩
    · rw [hAB, DirBlock.entries ⟨l, hl, rfl⟩ G.eight_dvd, hsplit]
      simp
    · rw [show A ++ (es₁ ++ es₂) ++ B = A ++ es₁ ++ (es₂ ++ B) by simp] at hstep
      rw [hv]
      exact hstep

end JuampiOs.Ext2
