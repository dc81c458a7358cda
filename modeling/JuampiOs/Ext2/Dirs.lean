import Mathlib.Data.List.TakeWhile
import JuampiOs.Lib.Tree
import JuampiOs.Ext2.DirBlock
import JuampiOs.Ext2.Files

/-!
# Reading directories

The entries of a directory on a view, the rules for the functions that walk them, and path
resolution: on a readable view, `resolve` walks the tree that the live directories form
(`resolve_exact`).
-/

namespace JuampiOs.Ext2

open Lib List Option View Exact

variable {fs : Fs} {G : Layout fs} {v : View} {ino : Inode}

/-! ## The entries of a directory -/

/-- The entries of a directory, block by block. A hole has none. -/
def dirEntries (fs : Fs) (data : Nat → Buf) (ino : Inode) : List Entry :=
  (List.range (dirBlocks fs ino)).flatMap fun i => blockEntries fs (fileBlock fs data ino i)

/-- A directory of whole blocks, each tiled by records, and nothing mapped past its size. -/
structure DirTiled (fs : Fs) (data : Nat → Buf) (ino : Inode) : Prop where
  isDir : ino.isDir = true
  size : fs.blockSize ∣ ino.size.toNat
  blocks : ∀ i, i < dirBlocks fs ino → fileBlk fs data ino i ≠ 0 →
    ∃ es, DirBlock fs (data (fileBlk fs data ino i)) es
  beyond : ∀ i, dirBlocks fs ino ≤ i → fileBlk fs data ino i = 0

/-- No name has more than 255 bytes. -/
def ShortNames (es : List Entry) : Prop := ∀ e ∈ es, e.name.length ≤ 255

/-- A well-formed directory. -/
structure DirOk (fs : Fs) (data : Nat → Buf) (ino : Inode) : Prop extends
    DirTiled fs data ino where
  names : ShortNames (dirEntries fs data ino)

theorem ShortNames.insert {es₁ es₂ : List Entry} {e : Entry} (h : ShortNames (es₁ ++ es₂))
    (he : e.name.length ≤ 255) : ShortNames (es₁ ++ e :: es₂) :=
  fun _ hd => (mem_cons.mp (perm_middle.mem_iff.mp hd)).elim (fun heq => heq ▸ he) (h _)

theorem ShortNames.erase {es₁ es₂ : List Entry} {e : Entry} (h : ShortNames (es₁ ++ e :: es₂)) :
    ShortNames (es₁ ++ es₂) :=
  fun _ hd => h _ (perm_middle.mem_iff.mpr (mem_cons_of_mem e hd))

theorem Layout.eight_dvd (G : Layout fs) : 8 ∣ fs.blockSize :=
  dvd_trans (by decide) G.blockSize.dvd

theorem isDir_not_isReg (h : ino.isDir = true) : ino.isReg = false := by
  unfold Inode.isReg
  rw [beq_iff_eq.mp h]
  decide

theorem inodeFileSize_dir (h : ino.isDir = true) : inodeFileSize fs ino = ino.size.toNat := by
  unfold inodeFileSize
  rw [isDir_not_isReg h]
  rfl

variable {data : Nat → Buf} {base path : List UInt8} {x : Nat}

theorem DirTiled.dirBlocks_eq (G : Layout fs) (h : DirTiled fs data ino) :
    dirBlocks fs ino = ino.size.toNat / fs.blockSize := by
  have hpos := G.blockSize_pos
  obtain ⟨k, hk⟩ := h.size
  unfold dirBlocks
  rw [inodeFileSize_dir h.isDir, hk, Nat.mul_div_cancel_left k hpos,
    Nat.add_sub_assoc hpos, Nat.mul_add_div hpos, Nat.div_eq_of_lt (by omega), Nat.add_zero]

theorem blockEntries_zero (fs : Fs) : blockEntries fs Buf.zero = [] := by
  unfold blockEntries
  cases fs.maxRecords with
  | zero => rfl
  | succ n =>
    unfold walkRecords
    split
    · rw [if_pos (by decide)]
    · rfl

/-- The loop over the blocks of a directory, wherever `block_of` finds them. -/
theorem walkBlocks_reads {bs : Nat} {ok : Nat → Prop} {blk : Nat → Nat}
    (hblk : ∀ i, Reads bs ok data (blockOf fs ino i) (· = blk i))
    (hok : ∀ i, blk i ≠ 0 → ok (blk i))
    {σ : Type} (fn : σ → Entry → σ × Bool) : ∀ (fuel bi : Nat) (ctx : σ),
      Reads bs ok data (walkBlocks fs ino fn fuel bi ctx)
        (· = (foldStop fn ctx ((List.range' bi fuel).flatMap fun i =>
          blockEntries fs (if blk i = 0 then Buf.zero else data (blk i)))).1)
  | 0, bi, ctx => .ret rfl
  | fuel + 1, bi, ctx => by
    refine .seq (hblk bi) ?_
    rw [range'_succ, flatMap_cons, foldStop_append]
    have ih := walkBlocks_reads hblk hok fn fuel (bi + 1)
    by_cases h0 : blk bi = 0
    · rw [if_pos h0, if_pos h0, blockEntries_zero]
      exact ih ctx
    rw [if_neg h0, if_neg h0]
    refine .seq (.block (hok bi h0)) ?_
    dsimp only
    rw [walkRecords_eq, ← blockEntries_eq]
    rcases foldStop fn ctx (blockEntries fs (data (blk bi))) with ⟨ctx', _ | _⟩
    · exact ih ctx'
    · exact .ret rfl

/-- **`walk_dir`** shows its callback the entries of the directory until it has seen enough. -/
theorem walkDir_exact (hm : Mapped G v ino) (hd : ino.isDir = true) {σ : Type}
    (fn : σ → Entry → σ × Bool) (ctx : σ) :
    G.Exact (walkDir fs ino fn ctx) v (foldStop fn ctx (dirEntries fs v.data ino)).1 v := by
  unfold walkDir dirEntries
  rw [hd, range_eq_range']
  have hblk : ∀ i, Reads fs.blockSize _ v.data (blockOf fs ino i) (· = fileBlk fs v.data ino i) :=
    fun i => reached_eq v.data ino G.perSq_lt i ▸ blockOf_reads hm i
  exact (walkBlocks_reads hblk (fun i => hm.fileBlk) fn _ 0 ctx).exact fun _ h => h.1

theorem DirTiled.mem_block (G : Layout fs) (h : DirTiled fs data ino) {e : Entry}
    (he : e ∈ dirEntries fs data ino) :
    ∃ i es, i < dirBlocks fs ino ∧ fileBlk fs data ino i ≠ 0 ∧
      DirBlock fs (data (fileBlk fs data ino i)) es ∧ e ∈ es := by
  obtain ⟨i, hi, hmem⟩ := mem_flatMap.mp he
  have hi := mem_range.mp hi
  by_cases h0 : fileBlk fs data ino i = 0
  · unfold fileBlock at hmem
    rw [if_pos h0, blockEntries_zero] at hmem
    cases hmem
  · obtain ⟨es, hes⟩ := h.blocks i hi h0
    unfold fileBlock at hmem
    rw [if_neg h0, hes.entries G.eight_dvd] at hmem
    exact ⟨i, es, hi, h0, hes, hmem⟩

/-! ## What the callbacks compute -/

/-- The name and inode number of an entry. -/
def Entry.pair (e : Entry) : List UInt8 × Nat := (e.name, e.inode)

theorem foldStop_match (name : List UInt8) : ∀ es : List Entry,
    (foldStop (matchEntry name) 0 es).1 =
      (@List.lookup _ _ instBEqOfDecidableEq name (es.map Entry.pair)).getD 0
  | [] => rfl
  | e :: es => by
    simp only [foldStop, matchEntry, map_cons, Entry.pair, lookup_cons]
    by_cases h : e.name = name
    · simp [h]
    · have hne : @BEq.beq _ instBEqOfDecidableEq name e.name = false :=
        decide_eq_false (Ne.symm h)
      rw [if_neg h, hne]
      exact foldStop_match name es

theorem foldStop_count : ∀ es : List Entry, (foldStop countCb 0 es).1 = 0 ↔
    ∀ e ∈ es, e.name = [46] ∨ e.name = [46, 46]
  | [] => by simp [foldStop]
  | e :: es => by
    have ih := foldStop_count es
    simp only [foldStop, countCb, forall_mem_cons]
    by_cases h1 : e.name = [46]
    · simp [h1, ih]
    · by_cases h2 : e.name = [46, 46]
      · simp [h2, ih]
      · simp [h1, h2]

theorem foldStop_emit : ∀ (es out : List Entry), (∀ e ∈ es, e.name.length ≤ 255) →
    foldStop emitEntry out es = (out ++ es, false)
  | [], out, _ => by simp [foldStop]
  | e :: es, out, h => by
    have hcut : e.name.take 255 = e.name := take_of_length_le (h e mem_cons_self)
    simp only [foldStop, emitEntry, hcut]
    rw [foldStop_emit es _ fun e' he' => h e' (mem_cons_of_mem e he')]
    simp

/-! ## Paths -/

theorem compsFrom_append_slash (q : List UInt8) : ∀ p cur : List UInt8,
    compsFrom cur (p ++ slash :: q) = compsFrom cur p ++ comps q
  | [], cur => by
    unfold comps
    simp only [nil_append, compsFrom, if_pos]
    split <;> simp
  | c :: p, cur => by
    simp only [cons_append, compsFrom]
    by_cases hc : c = slash
    · rw [if_pos hc, if_pos hc, compsFrom_append_slash q p []]
      split <;> simp
    · rw [if_neg hc, if_neg hc]
      exact compsFrom_append_slash q p (c :: cur)

theorem comps_append_slash (p q : List UInt8) : comps (p ++ slash :: q) = comps p ++ comps q :=
  compsFrom_append_slash q p []

theorem compsFrom_of_no_slash : ∀ p cur : List UInt8, slash ∉ p → cur ≠ [] ∨ p ≠ [] →
    compsFrom cur p = [cur.reverse ++ p]
  | [], cur, _, h => by
    have hcur : cur ≠ [] := h.elim id fun h => absurd rfl h
    simp [compsFrom, hcur]
  | c :: p, cur, hp, _ => by
    have hc : c ≠ slash := fun h => hp (h ▸ mem_cons_self)
    simp only [compsFrom, if_neg hc]
    rw [compsFrom_of_no_slash p (c :: cur) (fun h => hp (mem_cons_of_mem c h)) (.inl (by simp))]
    simp

theorem comps_of_all_slash : ∀ p : List UInt8, (∀ c ∈ p, c = slash) → comps p = []
  | [], _ => rfl
  | c :: p, h => by
    obtain rfl := h c mem_cons_self
    have := comps_append_slash [] p
    rw [nil_append] at this
    rw [this, comps_of_all_slash p fun c hc => h c (mem_cons_of_mem _ hc)]
    rfl

theorem comps_base {tail : List UInt8} (hbase : slash ∉ base) (hne : base ≠ [])
    (htail : ∀ c ∈ tail, c = slash) : comps (base ++ tail) = [base] := by
  have hcomps : comps base = [base] := compsFrom_of_no_slash base [] hbase (.inr hne)
  cases tail with
  | nil => rw [append_nil, hcomps]
  | cons c tail =>
    obtain rfl := htail c mem_cons_self
    rw [comps_append_slash, hcomps,
      comps_of_all_slash tail fun c hc => htail c (mem_cons_of_mem _ hc)]
    rfl

/-- A path taken apart: the text before its last component, and that component. Slashes may
follow. -/
structure Splits (path pre base : List UInt8) : Prop where
  eq : ∃ tail, path = pre ++ (base ++ tail) ∧ ∀ c ∈ tail, c = slash
  pre : pre = [] ∨ ∃ front, pre = front ++ [slash]
  ne : base ≠ []
  clean : slash ∉ base

theorem Splits.comps_eq {pre : List UInt8} (h : Splits path pre base) :
    comps path = comps pre ++ [base] := by
  obtain ⟨tail, rfl, htail⟩ := h.eq
  have hbase := comps_base h.clean h.ne htail
  rcases h.pre with rfl | ⟨front, rfl⟩
  · exact hbase
  · rw [append_assoc, singleton_append, comps_append_slash, comps_append_slash, hbase]
    simp [comps, compsFrom]

theorem Splits.splitPath_eq {pre : List UInt8} (h : Splits path pre base) :
    splitPath path = if 255 < base.length then none else if pre = [] then some ([slash], base)
      else if 256 ≤ pre.length then none else some (pre, base) := by
  obtain ⟨tail, rfl, htail⟩ := h.eq
  have hne := h.ne
  have htrim : ((pre ++ (base ++ tail)).reverse.dropWhile (· == slash)).reverse = pre ++ base := by
    obtain ⟨front, c, rfl⟩ := eq_nil_or_concat' base |>.resolve_left hne
    have hc : c ≠ slash := fun h' => h.clean (by simp [h'])
    rw [reverse_append, reverse_append, append_assoc,
      dropWhile_append_of_pos (by simpa using htail)]
    simp [hc]
  have hlast : ((pre ++ base).reverse.takeWhile (· != slash)).reverse = base := by
    rw [reverse_append, takeWhile_append_of_pos (by
      simpa using fun c hc => fun h' : c = slash => h.clean (h' ▸ hc))]
    rcases h.pre with rfl | ⟨front, rfl⟩ <;> simp
  unfold splitPath
  simp only [htrim, hlast]
  rw [if_neg (by simp [hne]), List.length_append, Nat.add_sub_cancel, List.take_left]
  have hlen : base.length ≠ 0 := by simpa using hne
  simp only [hlen, false_or, length_eq_zero_iff]

theorem slashes_or_splits (path : List UInt8) :
    (∀ c ∈ path, c = slash) ∨ ∃ pre base, Splits path pre base := by
  induction path using reverseRecOn with
  | nil => exact .inl (by simp)
  | append_singleton path c ih =>
    by_cases hc : c = slash
    · rcases ih with hall | ⟨pre, base, ⟨tail, rfl, htail⟩, hpre, hne, hclean⟩
      · refine .inl fun d hd => ?_
        rcases mem_append.mp hd with hd | hd
        · exact hall d hd
        · exact (mem_singleton.mp hd).trans hc
      · refine .inr ⟨pre, base, ⟨tail ++ [c], by simp, fun d hd => ?_⟩, hpre, hne, hclean⟩
        rcases mem_append.mp hd with hd | hd
        · exact htail d hd
        · exact (mem_singleton.mp hd).trans hc
    · right
      have hnil : ∀ d ∈ ([] : List UInt8), d = slash := by simp
      rcases ih with hall | ⟨pre, base, ⟨tail, rfl, htail⟩, hpre, hne, hclean⟩
      · refine ⟨path, [c], ⟨[], by simp, hnil⟩, ?_, by simp, by simpa using Ne.symm hc⟩
        rcases eq_nil_or_concat' path with rfl | ⟨front, d, rfl⟩
        · exact .inl rfl
        · exact .inr ⟨front, by rw [hall d (by simp)]⟩
      -- a component goes on, or a new one starts
      rcases eq_nil_or_concat' tail with rfl | ⟨front, d, rfl⟩
      · exact ⟨pre, base ++ [c], ⟨[], by simp, hnil⟩, hpre, by simp,
          by simpa using ⟨hclean, Ne.symm hc⟩⟩
      · exact ⟨pre ++ (base ++ (front ++ [d])), [c], ⟨[], by simp, hnil⟩,
          .inr ⟨pre ++ (base ++ front), by rw [htail d (by simp)]; simp⟩, by simp,
          by simpa using Ne.symm hc⟩

/-- **`resolve_parent` splits off the last component.** -/
theorem splitPath_comps {pbuf : List UInt8} (h : splitPath path = some (pbuf, base)) :
    comps path = comps pbuf ++ [base] ∧ base.length ≤ 255 := by
  rcases slashes_or_splits path with hall | ⟨pre, base', hs⟩
  · have hnil : path.reverse.dropWhile (· == slash) = [] :=
      dropWhile_eq_nil_iff.mpr (by simpa using hall)
    simp [splitPath, hnil] at h
  rw [hs.splitPath_eq] at h
  rw [hs.comps_eq]
  split at h
  · cases h
  rename_i hlen
  split at h
  · rename_i hpre
    cases h
    rw [hpre]
    exact ⟨rfl, by omega⟩
  · split at h
    · cases h
    · cases h
      exact ⟨rfl, by omega⟩

/-! ## The tree of live directories -/

/-- The names of a directory's entries for itself and its parent, and the root directory. -/
def conv : Conv (List UInt8) Nat := ⟨[46], [46, 46], EXT2_ROOT_INO, by decide⟩

instance (fs : Fs) (x : Nat) : Decidable (fs.ValidIno x) := by
  unfold Fs.ValidIno; infer_instance

/-- Inode `x` is allocated. -/
def View.live (fs : Fs) (v : View) (x : Nat) : Bool := decide (fs.ValidIno x) && v.iused x

def View.liveDir (fs : Fs) (v : View) (x : Nat) : Bool := v.live fs x && (v.inode x).isDir

/-- The tree the live directories form. -/
def View.tree (fs : Fs) (v : View) : Tree (List UInt8) Nat where
  isDir := v.liveDir fs
  ents x := if v.liveDir fs x then (dirEntries fs v.data (v.inode x)).map Entry.pair else []

theorem live_iff : v.live fs x = true ↔ fs.ValidIno x ∧ v.iused x = true := by
  simp [live]

theorem liveDir_iff : v.liveDir fs x = true ↔ v.live fs x = true ∧ (v.inode x).isDir = true := by
  simp [liveDir]

theorem valid_of_liveDir (h : v.liveDir fs x = true) : fs.ValidIno x :=
  (live_iff.mp (liveDir_iff.mp h).1).1

/-- The inode a path names. -/
def View.find (fs : Fs) (v : View) (path : List UInt8) : Option Nat :=
  (v.tree fs).walk EXT2_ROOT_INO (comps path)

/-- What the reading functions rely on. -/
structure Readable (G : Layout fs) (v : View) : Prop where
  root : v.liveDir fs EXT2_ROOT_INO = true
  dirs : ∀ x, v.liveDir fs x = true → Mapped G v (v.inode x) ∧ DirOk fs v.data (v.inode x)
  files : ∀ x, v.live fs x = true → (v.inode x).isReg = true →
    Mapped G v (v.inode x) ∧ inodeFileSize fs (v.inode x) < 2 ^ 41
  targets : ∀ x name y, (name, y) ∈ (v.tree fs).ents x → v.live fs y = true

namespace Readable

variable (h : Readable G v)

include h

theorem lookup (hx : v.live fs x = true) (name : List UInt8) :
    G.Exact (walkDir fs (v.inode x) (matchEntry name) 0) v
      (((v.tree fs).step x name).getD 0) v := by
  unfold Tree.step tree
  by_cases hd : (v.inode x).isDir = true
  · have hld : v.liveDir fs x = true := liveDir_iff.mpr ⟨hx, hd⟩
    obtain ⟨hm, hok⟩ := h.dirs x hld
    have := walkDir_exact hm hok.isDir (matchEntry name) 0
    rw [foldStop_match] at this
    simpa only [if_pos hld] using this
  have hld : v.liveDir fs x ≠ true := fun hl => hd (liveDir_iff.mp hl).2
  have hd' : (v.inode x).isDir = false := by simpa using hd
  simp only [if_neg hld]
  unfold walkDir
  rw [hd']
  exact ret 0

theorem live_step {y : Nat} {name : List UInt8}
    (hy : (v.tree fs).step x name = some y) : v.live fs y = true :=
  h.targets x name y (Tree.mem_of_step hy)

theorem live_walk : ∀ (names : List (List UInt8)) (x y : Nat),
    v.live fs x = true → (v.tree fs).walk x names = some y → v.live fs y = true
  | [], x, y, hx, hw => by
    obtain rfl := some.inj hw
    exact hx
  | name :: names, x, y, hx, hw => by
    obtain ⟨z, hz, hw⟩ := bind_eq_some_iff.mp hw
    exact live_walk names z y (h.live_step hz) hw

theorem live_root : v.live fs EXT2_ROOT_INO = true := (liveDir_iff.mp h.root).1

theorem resolveFrom_exact : ∀ (names : List (List UInt8)) (x : Nat),
    v.live fs x = true → G.Exact (resolveFrom fs names x (v.inode x)) v
      (((v.tree fs).walk x names).map fun y => (y, v.inode y)) v
  | [], x, _ => ret _
  | name :: names, x, hx => by
    refine seq (h.lookup hx name) ?_
    simp only [Tree.walk]
    cases hs : (v.tree fs).step x name with
    | none => exact ret _
    | some y =>
      have hy := h.live_step hs
      have hvalid := (live_iff.mp hy).1
      simp only [getD_some, bind_some]
      rw [if_neg (by have := hvalid.1; omega)]
      refine seq (readInode_exact hvalid) ?_
      exact resolveFrom_exact names y hy

/-- **`resolve`** walks the tree from its root. -/
theorem resolve_exact (path : List UInt8) :
    G.Exact (resolve fs path) v ((v.find fs path).map fun y => (y, v.inode y)) v := by
  refine seq (readInode_exact (live_iff.mp h.live_root).1) ?_
  exact h.resolveFrom_exact (comps path) EXT2_ROOT_INO h.live_root

end Readable

/-! ## What the reading calls deliver -/

/-- The directory the last component of a path is looked up in, and that component. -/
def View.target (fs : Fs) (v : View) (path : List UInt8) : Option (Nat × List UInt8) :=
  (splitPath path).bind fun (pbuf, base) => (v.find fs pbuf).bind fun p =>
    if (v.inode p).isDir then some (p, base) else none

/-- The bytes of regular file `x`. -/
def View.bytes (fs : Fs) (v : View) (x : Nat) : List UInt8 :=
  fileBytes fs v.data (v.inode x) (inodeFileSize fs (v.inode x))

def View.readPath (fs : Fs) (v : View) (path : List UInt8) : Option (List UInt8) :=
  (v.find fs path).bind fun x => if (v.inode x).isReg then some (v.bytes fs x) else none

def View.statPath (fs : Fs) (v : View) (path : List UInt8) : Option Stat :=
  (v.find fs path).map fun x =>
    ⟨inodeFileSize fs (v.inode x), x, (v.inode x).mode, (v.inode x).isDir⟩

def View.listPath (fs : Fs) (v : View) (path : List UInt8) : Option (List Entry) :=
  (v.find fs path).bind fun x =>
    if (v.inode x).isDir then some (dirEntries fs v.data (v.inode x)) else none

namespace Readable

variable (h : Readable G v)
include h

theorem live_find (hx : v.find fs path = some x) : v.live fs x = true :=
  h.live_walk _ _ _ h.live_root hx

theorem readPath_exact (path : List UInt8) :
    G.Exact (readPathImpl fs path) v (v.readPath fs path) v := by
  unfold readPathImpl readPath
  refine seq (h.resolve_exact path) ?_
  cases hx : v.find fs path with
  | none => exact ret _
  | some x =>
    have hlive := h.live_find hx
    simp only [map_some, bind_some]
    cases hreg : (v.inode x).isReg with
    | false => exact ret _
    | true =>
      obtain ⟨hm, hsize⟩ := h.files x hlive hreg
      refine seq (readFile_exact hm hsize) ?_
      exact ret _

theorem statPath_exact (path : List UInt8) :
    G.Exact (statPathImpl fs path) v (v.statPath fs path) v := by
  unfold statPathImpl statPath
  refine seq (h.resolve_exact path) ?_
  cases v.find fs path with
  | none => exact ret _
  | some x => exact ret _

theorem listPath_exact (path : List UInt8) :
    G.Exact (listImpl fs path) v (v.listPath fs path) v := by
  unfold listImpl listPath
  refine seq (h.resolve_exact path) ?_
  cases hx : v.find fs path with
  | none => exact ret _
  | some x =>
    have hlive := h.live_find hx
    simp only [map_some, bind_some]
    cases hdir : (v.inode x).isDir with
    | false => exact ret _
    | true =>
      obtain ⟨hm, hok⟩ := h.dirs x (liveDir_iff.mpr ⟨hlive, hdir⟩)
      have hwalk := walkDir_exact hm hok.isDir emitEntry []
      rw [foldStop_emit _ _ hok.names, nil_append] at hwalk
      refine seq hwalk ?_
      exact ret _

/-- **`resolve_parent`** finds the directory the last component is looked up in. -/
theorem resolveParent_exact (path : List UInt8) :
    G.Exact (resolveParent fs path) v
      ((v.target fs path).map fun (p, base) => (p, v.inode p, base)) v := by
  unfold resolveParent target
  cases hsp : splitPath path with
  | none => exact ret _
  | some pb =>
    obtain ⟨pbuf, base⟩ := pb
    simp only [bind_some]
    refine seq (h.resolve_exact pbuf) ?_
    cases v.find fs pbuf with
    | none => exact ret _
    | some p =>
      simp only [map_some, bind_some]
      cases (v.inode p).isDir with
      | false => exact ret _
      | true => exact ret _

end Readable

end JuampiOs.Ext2
