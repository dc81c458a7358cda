import JuampiOs.Bcache.Runs
import JuampiOs.Ext2.Dirs

/-!
# Reading an arbitrary image

What the reading functions do on any image whose blocks can be read, sound or not: the two block
mappers `block_of` and `map_blocks`, the two path walkers `resolve` and `resolve_parent`, and the
record loop of `walk_dir`.
-/

namespace JuampiOs.Ext2

open Lib Cached List Buf

variable {fs : Fs} {st : Mount} {A : Nat → Buf} {bs : Nat}

theorem Serves.create (hbs : 0 < fs.blockSize) (hmod : fs.blockSize % 512 = 0)
    (hc : st.cache = bcacheCreate fs.blockSize EXT2_CACHE_BLOCKS) (hr : st.dev.ReadsOk)
    (hw : st.dev.WritesOk) : Serves fs st (st.dev.block fs.blockSize) := by
  obtain ⟨c, hcache⟩ := Option.isSome_iff_exists.mp
    (show (bcacheCreate fs.blockSize EXT2_CACHE_BLOCKS).isSome = true from
      bcacheCreate_isSome hbs hmod (by decide) (by decide))
  obtain ⟨hwf, hsize, _, hempty⟩ := bcacheCreate_wf hcache
  have hcoh := coherent_of_empty (X := fun _ => False) ⟨c, st.dev⟩ hempty
  rw [hsize] at hcoh
  exact ⟨⟨c, hc.trans hcache, hwf, hsize, hcoh⟩, hr, hw⟩

theorem Within.all (A : Nat → Buf) (ino : Inode) : Within fs (fun _ => True) A ino :=
  fun _ _ _ => trivial

theorem Serves.run_eq {α : Type} (h : Serves fs st A) {p : Io α} {a : α}
    (hp : Reads fs.blockSize (fun _ => True) A p (· = a)) : (st.run p).1 = a :=
  (h.run hp).2

/-! ## Two block mappers -/

/-- A mounted state on a device that holds `b` in every block. -/
def tiledMount (fs : Fs) (b : Buf) : Mount :=
  { mounted := true
    fs := fs
    counts := ⟨0, 0⟩
    cache := bcacheCreate fs.blockSize EXT2_CACHE_BLOCKS
    dev := ⟨fun i => b (i % fs.blockSize), 1, fun _ => false, fun _ => none, 0, 0⟩ }

theorem tiledMount_serves (b : Buf) (hbs : 0 < fs.blockSize) (hmod : fs.blockSize % 512 = 0) :
    Serves fs (tiledMount fs b) fun _ => b.take fs.blockSize := by
  have hblock : (tiledMount fs b).dev.block fs.blockSize = fun _ => b.take fs.blockSize := by
    funext k i
    unfold BlockDev.block Buf.take
    split
    · rename_i hi
      show b ((k * fs.blockSize + i) % fs.blockSize) = b i
      rw [mul_comm, Nat.mul_add_mod, Nat.mod_eq_of_lt hi]
    · rfl
  rw [← hblock]
  exact .create hbs hmod rfl (fun _ => rfl) fun _ _ => rfl

/-- All bytes are ones. -/
def ones : Buf := fun _ => 255

/-- An inode with all its pointers set. -/
def onesInode : Inode := Inode.decode ones 0

theorem ones_ptr {i : Nat} (hi : i < fs.per) : ptrAt (ones.take fs.blockSize) i = 2 ^ 32 - 1 := by
  have hword : (ones.take fs.blockSize).get32 (4 * i) = ones.get32 0 := by
    refine get32_congr fun k hk => ?_
    unfold Fs.per at hi
    exact take_of_lt _ (by omega)
  unfold ptrAt word
  rw [hword]
  decide

theorem onesInode_fileBlk {i : Nat} (hi : i < 12 + fs.per + fs.per * fs.per) :
    fileBlk fs (fun _ => ones.take fs.blockSize) onesInode i = 2 ^ 32 - 1 := by
  have hptr : ∀ r, r < 15 → onesInode.ptr r = 2 ^ 32 - 1 := by decide
  by_cases h12 : i < 12
  · rw [fileBlk_direct _ _ h12, hptr i (by omega)]
  by_cases hind : i < 12 + fs.per
  · rw [fileBlk_single _ _ (by omega) hind, hptr 12 (by decide), if_neg (by decide),
      ones_ptr (by omega)]
  have hpos : 0 < fs.per := pos_of_ne_zero fun h => by rw [h] at hi hind; omega
  have hdiv := Nat.div_add_mod (i - 12 - fs.per) fs.per
  have hmod := Nat.mod_lt (i - 12 - fs.per) hpos
  have hj : (i - 12 - fs.per) / fs.per < fs.per := Nat.div_lt_of_lt_mul (by omega)
  rw [mul_comm] at hdiv
  rw [fileBlk_double _ _ hj (by omega) (by omega), hptr 13 (by decide), if_neg (by decide),
    ones_ptr hj, if_neg (by decide), ones_ptr (by omega)]

/-- A file system with blocks of 1 KiB. -/
def kibFs : Fs :=
  ⟨Buf.zero, 8193, 1, 8192, 1024, 1024, 128, 1, true, false⟩

/-- An inode whose first block has the last number, with a hole after it. -/
def lastInode : Inode := { onesInode with block := fun i => if i = 0 then 0xFFFFFFFF else 0 }

/-- A run through a cache that holds nothing comes from the device in one transfer. -/
theorem readRun_fresh {c : Bcache} {b n : Nat} (hn : n ≠ 0) (hc : st.cache = some c) (hwf : c.Wf)
    (hempty : ∀ s, ¬ c.Resident s) (hr : st.dev.ReadsOk) (hspan : n * c.spb < 2 ^ 32) :
    (st.run (readRun b n)).1 = (List.range n).map fun i => Buf.take c.blockSize fun j =>
      Buf.take (n * c.spb * 512) (fun k => st.dev.disk (b * c.spb * 512 + k))
        (i * c.blockSize + j) := by
  have hany : ((range n).any fun i => (c.lookup (u32 (b + i))).isSome) = false := by
    rw [any_eq_false]
    intro i _ hsome
    obtain ⟨s, hs⟩ := Option.isSome_iff_exists.mp hsome
    exact hempty s (hwf.lookup_eq_some.mp hs).1
  show (Mount.handle (.readRun b n) st).1 = _
  simp only [Mount.handle, hc, bcacheReadRun, if_neg hn]
  rw [if_neg (by simpa using hany)]
  simp only [BlockDev.read, hr _, u32_of_lt hspan]
  rfl

theorem readFile_last : readFile kibFs lastInode 2048 = readRun (2 ^ 32 - 1) 2 >>= fun got =>
    pure (((List.range 2).map fun j => got.getD j Buf.zero).flatMap fun b => b.bytes 1024) := by
  rfl

/-- The records `walk_dir` shows a callback that does not stop it: the block they stand in, and
where. -/
def dirShown (fs : Fs) (A : Nat → Buf) (dir : Inode) : List (Nat × Nat) :=
  (List.range (dirBlocks fs dir)).flatMap fun i =>
    if reached fs A dir i = 0 then []
    else (shown fs (A (reached fs A dir i)) fs.maxRecords 0).map (reached fs A dir i, ·)

/-- What a callback makes of the directory. -/
def foldDir {σ : Type} (fs : Fs) (A : Nat → Buf) (dir : Inode) (fn : σ → Entry → σ × Bool) (ctx : σ) :
    σ :=
  if dir.isDir then (foldStop fn ctx ((dirShown fs A dir).map fun r => entryAt fs (A r.1) r.2)).1
  else ctx

theorem walkDir_reads (A : Nat → Buf) (dir : Inode) {σ : Type} (fn : σ → Entry → σ × Bool)
    (ctx : σ) :
    Reads bs (fun _ => True) A (walkDir fs dir fn ctx) (· = foldDir fs A dir fn ctx) := by
  unfold walkDir foldDir
  cases hd : dir.isDir with
  | false => exact .ret rfl
  | true =>
    have hentries : (dirShown fs A dir).map (fun r => entryAt fs (A r.1) r.2) =
        (range' 0 (dirBlocks fs dir)).flatMap fun i => blockEntries fs
          (if reached fs A dir i = 0 then zero else A (reached fs A dir i)) := by
      unfold dirShown
      rw [map_flatMap, range_eq_range']
      apply flatMap_congr
      intro i _
      split
      · exact (blockEntries_zero fs).symm
      · rw [blockEntries_eq, map_map]
        rfl
    simp only [Bool.not_true, Bool.false_eq_true, if_false, if_true, hentries]
    exact walkBlocks_reads (blockOf_reads (.all A dir)) (fun _ _ => trivial) fn _ 0 ctx

/-- The record loop steps from one record to the next. -/
def NextRec (fs : Fs) (b : Buf) (off next : Nat) : Prop :=
  off + 8 ≤ fs.blockSize ∧ 8 ≤ (Dirent.at b off).recLen ∧ next = off + (Dirent.at b off).recLen

theorem mem_shown {b : Buf} {o : Nat} (fuel : Nat) :
    ∀ off, fs.blockSize < off + 8 * fuel + 8 → (o ∈ shown fs b fuel off ↔
      Relation.ReflTransGen (NextRec fs b) off o ∧ o + 8 ≤ fs.blockSize ∧
        8 ≤ (Dirent.at b o).recLen ∧ (Dirent.at b o).inode ≠ 0) := by
  -- from a record the loop stops at, no other is reached
  have hstuck : ∀ off, ¬ (off + 8 ≤ fs.blockSize ∧ 8 ≤ (Dirent.at b off).recLen) →
      ¬ (Relation.ReflTransGen (NextRec fs b) off o ∧ o + 8 ≤ fs.blockSize ∧
        8 ≤ (Dirent.at b o).recLen ∧ (Dirent.at b o).inode ≠ 0) := by
    intro off hoff h
    rcases h.1.cases_head with rfl | ⟨next, hstep, _⟩
    · exact hoff ⟨h.2.1, h.2.2.1⟩
    · exact hoff ⟨hstep.1, hstep.2.1⟩
  induction fuel with
  | zero =>
    intro off hfuel
    exact iff_of_false not_mem_nil (hstuck off (by omega))
  | succ fuel ih =>
    intro off hfuel
    unfold shown
    by_cases hin : off + 8 ≤ fs.blockSize
    swap
    · rw [if_neg hin]
      exact iff_of_false not_mem_nil (hstuck off (by omega))
    rw [if_pos hin]
    by_cases hlen : (Dirent.at b off).recLen < 8
    · rw [if_pos hlen]
      exact iff_of_false not_mem_nil (hstuck off (by omega))
    rw [if_neg hlen]
    have hnext : NextRec fs b off (off + (Dirent.at b off).recLen) := ⟨hin, by omega, rfl⟩
    have hrest := ih (off + (Dirent.at b off).recLen) (by omega)
    have hhead : Relation.ReflTransGen (NextRec fs b) off o ↔
        o = off ∨ Relation.ReflTransGen (NextRec fs b) (off + (Dirent.at b off).recLen) o := by
      constructor
      · intro h
        rcases h.cases_head with rfl | ⟨next, hstep, h⟩
        · exact .inl rfl
        · exact .inr (hstep.2.2 ▸ h)
      · rintro (rfl | h)
        · exact .refl
        · exact h.head hnext
    rw [hhead]
    split
    · rename_i hdead
      rw [hrest]
      constructor
      · exact fun h => ⟨.inr h.1, h.2⟩
      · rintro ⟨rfl | h, h'⟩
        · exact absurd hdead h'.2.2
        · exact ⟨h, h'⟩
    · rename_i hlive
      rw [mem_cons, hrest]
      constructor
      · rintro (rfl | h)
        · exact ⟨.inl rfl, hin, by omega, hlive⟩
        · exact ⟨.inr h.1, h.2⟩
      · rintro ⟨rfl | h, h'⟩
        · exact .inl rfl
        · exact .inr ⟨h, h'⟩

/-- The record loop is over when no header is left: more rounds change nothing. -/
theorem shown_fuel {b : Buf} (k fuel : Nat) :
    ∀ off, fs.blockSize < off + 8 * fuel + 8 → shown fs b (fuel + k) off = shown fs b fuel off := by
  induction fuel with
  | zero =>
    intro off hfuel
    cases k with
    | zero => rfl
    | succ k =>
      rw [zero_add]
      unfold shown
      rw [if_neg (by omega)]
  | succ fuel ih =>
    intro off hfuel
    rw [show fuel + 1 + k = fuel + k + 1 by omega]
    unfold shown
    by_cases hlen : (Dirent.at b off).recLen < 8
    · simp only [if_pos hlen]
    · simp only [if_neg hlen, ih (off + (Dirent.at b off).recLen) (by omega)]

/-- The names of the live records of a block end inside it. -/
def NamesInside (fs : Fs) (b : Buf) : Prop :=
  ∀ off, Relation.ReflTransGen (NextRec fs b) 0 off → off + 8 ≤ fs.blockSize →
    8 ≤ (Dirent.at b off).recLen → (Dirent.at b off).inode ≠ 0 →
      off + 8 + nameBytes fs b off ≤ fs.blockSize

/-- A directory of one block, block 1. -/
def oneBlockDir : Inode :=
  { onesInode with mode := 0x4000, size := 1024, block := fun i => if i = 0 then 1 else 0 }

/-- A block with one record that fills it. -/
def dotBlock : Buf := putDirent Buf.zero 0 2 1024 [46] 2

/-- A block whose last eight bytes are the header of a record with a name of 255 bytes. -/
def cutBlock : Buf :=
  ((putDirent Buf.zero 0 0 1016 [] 0).blit 1016 8 (putDirent Buf.zero 0 1 8 [] 0)).put8
  (1016 + 6) 255

/-- Inode `n` of the image. -/
def inodeOn (fs : Fs) (A : Nat → Buf) (n : Nat) : Inode :=
  let gd := GroupDesc.decode (A (gdPlace fs (inoPlace fs n).1).1) (gdPlace fs (inoPlace fs n).1).2
  let byte := u32 ((inoPlace fs n).2 * fs.inodeSize)
  Inode.decode (A (u32 (gd.inodeTable.toNat + byte / fs.blockSize))) (byte % fs.blockSize)

theorem readInode_reads (A : Nat → Buf) {n : Nat} (hn : n ≠ 0) :
    Reads bs (fun _ => True) A (readInode fs n) (· = some (inodeOn fs A n)) := by
  unfold readInode readGroupDesc
  rw [if_neg hn]
  exact .seq (.seq (.block trivial) (.ret rfl)) (.seq (.block trivial) (.ret rfl))

/-- What a name stands for in a directory: an inode number, 0 for none. -/
def findOn (fs : Fs) (A : Nat → Buf) (dir : Inode) (name : List UInt8) : Nat :=
  foldDir fs A dir (matchEntry name) 0

/-- One component of a path. -/
def stepOn (fs : Fs) (A : Nat → Buf) (d : Nat × Inode) (name : List UInt8) : Option (Nat × Inode) :=
  if findOn fs A d.2 name = 0 then none
  else some (findOn fs A d.2 name, inodeOn fs A (findOn fs A d.2 name))

theorem resolveFrom_reads (A : Nat → Buf) : ∀ (names : List (List UInt8)) (x : Nat) (cur : Inode),
    Reads bs (fun _ => True) A (resolveFrom fs names x cur) (· = names.foldlM (stepOn fs A) (x, cur))
  | [], x, cur => .ret rfl
  | name :: names, x, cur => by
    refine .seq (walkDir_reads A cur (matchEntry name) 0) ?_
    rw [foldlM_cons]
    unfold stepOn findOn
    by_cases h0 : foldDir fs A cur (matchEntry name) 0 = 0
    · rw [if_pos h0, if_pos h0]
      exact .ret rfl
    · rw [if_neg h0, if_neg h0]
      exact .seq (readInode_reads A h0) (resolveFrom_reads A names _ _)

/-- The walk along some components from the root. -/
def walkOn (fs : Fs) (A : Nat → Buf) (names : List (List UInt8)) : Option (Nat × Inode) :=
  names.foldlM (stepOn fs A) (EXT2_ROOT_INO, inodeOn fs A EXT2_ROOT_INO)

theorem resolve_reads (A : Nat → Buf) (path : List UInt8) :
    Reads bs (fun _ => True) A (resolve fs path) (· = walkOn fs A (comps path)) :=
  .seq (readInode_reads A (by decide)) (resolveFrom_reads A (comps path) _ _)

theorem resolveParent_reads (A : Nat → Buf) {path pre base : List UInt8} (hs : Splits path pre base)
    (hpre : pre.length < 256) (hbase : base.length ≤ 255) :
    Reads bs (fun _ => True) A (resolveParent fs path) (· = (walkOn fs A (comps pre)).bind fun d =>
      if d.2.isDir then some (d.1, d.2, base) else none) := by
  obtain ⟨pbuf, hsplit, hcomps⟩ : ∃ pbuf, splitPath path = some (pbuf, base) ∧
      comps pbuf = comps pre := by
    rw [hs.splitPath_eq, if_neg (by omega)]
    by_cases hnil : pre = []
    · exact ⟨[slash], if_pos hnil, by rw [hnil]; rfl⟩
    · exact ⟨pre, by rw [if_neg hnil, if_neg (by omega)], rfl⟩
  unfold resolveParent
  rw [hsplit]
  refine .seq (resolve_reads A pbuf) ?_
  rw [hcomps]
  cases walkOn fs A (comps pre) with
  | none => exact .ret rfl
  | some d =>
    dsimp only [Option.bind_some]
    cases d.2.isDir with
    | false | true => exact .ret rfl

/-- `resolve` finds inode `i`. -/
def ResolvesTo (fs : Fs) (st : Mount) (path : List UInt8) (i : Nat) : Prop :=
  ∃ ino, (st.run (resolve fs path)).1 = some (i, ino)

/-- `resolve_parent` finds a directory, and `dir_find` inode `i` there. -/
def FoundInParent (fs : Fs) (st : Mount) (path : List UInt8) (i : Nat) : Prop :=
  ∃ p dir base, (st.run (resolveParent fs path)).1 = some (p, dir, base) ∧ i ≠ 0 ∧
    ((st.run (resolveParent fs path)).2.run (dirFind fs dir base)).1 = i

theorem foundInParent_iff (h : Serves fs st A) {path pre base : List UInt8}
    (hs : Splits path pre base)
    (hpre : pre.length < 256) (hbase : base.length ≤ 255) (i : Nat) :
    FoundInParent fs st path i ↔ ∃ ino, walkOn fs A (comps path) = some (i, ino) := by
  obtain ⟨h', hparent⟩ := h.run (resolveParent_reads A hs hpre hbase)
  have hfind : ∀ dir base, ((st.run (resolveParent fs path)).2.run (dirFind fs dir base)).1 =
      findOn fs A dir base := fun dir base => h'.run_eq (walkDir_reads A dir (matchEntry base) 0)
  have hwalk : walkOn fs A (comps path) =
      (walkOn fs A (comps pre)).bind fun d => stepOn fs A d base := by
    rw [hs.comps_eq, walkOn, foldlM_append]
    simp [walkOn]
  unfold FoundInParent
  simp only [hfind, hparent, hwalk]
  cases walkOn fs A (comps pre) with
  | none => simp
  | some d =>
    obtain ⟨p, dir⟩ := d
    simp only [Option.bind_some, stepOn]
    cases hd : dir.isDir with
    | false =>
      have h0 : findOn fs A dir base = 0 := by simp [findOn, foldDir, hd]
      simp [h0]
    | true =>
      by_cases h0 : findOn fs A dir base = 0
      · simp only [if_true, if_pos h0, Option.some.injEq, Prod.mk.injEq]
        constructor
        · rintro ⟨_, _, _, ⟨rfl, rfl, rfl⟩, hi, heq⟩
          exact absurd (heq.symm.trans h0) hi
        · rintro ⟨_, hnone⟩
          cases hnone
      · simp only [if_true, if_neg h0, Option.some.injEq, Prod.mk.injEq]
        constructor
        · rintro ⟨_, _, _, ⟨rfl, rfl, rfl⟩, hi, heq⟩
          exact ⟨_, heq, rfl⟩
        · rintro ⟨_, heq, _⟩
          exact ⟨p, dir, base, ⟨rfl, rfl, rfl⟩, heq ▸ h0, heq⟩

/-- One slash less: a leading one, a trailing one, or one of two in a row. -/
inductive SlashLess : List UInt8 → List UInt8 → Prop where
  | leading (p : List UInt8) : SlashLess (slash :: p) p
  | trailing (p : List UInt8) : SlashLess (p ++ [slash]) p
  | repeated (p q : List UInt8) : SlashLess (p ++ slash :: slash :: q) (p ++ slash :: q)

theorem comps_slashLess {p q : List UInt8}
    (h : Relation.EqvGen SlashLess p q) : comps p = comps q := by
  have hslash : ∀ p, comps (slash :: p) = comps p := fun p => comps_append_slash [] p
  induction h with
  | rel p q h =>
    cases h with
    | leading => exact hslash q
    | trailing => rw [comps_append_slash]; exact append_nil _
    | repeated p r => rw [comps_append_slash, comps_append_slash, hslash]
  | refl p => rfl
  | symm p q _ ih => exact ih.symm
  | trans p q r _ _ ih ih' => exact ih.trans ih'

/-- A block that serves as group descriptor, inode table and root directory at once: its record is
for `child` under the name `a`, and at byte 128 it has the inode of the root. -/
def rootBlock (child : Nat) : Buf :=
  (((putDirent Buf.zero 0 child 1024 [97] 2).put16 128 0x4000).put32 132 1024).put32 168 1

/-- The record in the root is for an inode whose group descriptor would be in block 122882, and the
tenth read, which is for that block, fails. -/
def farMount : Mount :=
  { tiledMount kibFs (rootBlock 0xF0000001) with
    dev := { (tiledMount kibFs (rootBlock 0xF0000001)).dev with
      nsectors := 16386
      readFault := (· == 9) } }

end JuampiOs.Ext2
