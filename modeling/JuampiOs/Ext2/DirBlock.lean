import JuampiOs.Ext2.Write

/-!
# Directory blocks

A well-formed directory block is tiled by records (`Tiles`), and stands for the list of entries
of its live records (`DirBlock`). The record loops of the driver are described on these lists:
a walk folds over the entries, `dir_add` inserts one entry, `dir_remove` takes one out.
-/

namespace JuampiOs.Ext2

open Buf List

variable {fs : Fs} {b : Buf}

/-! ## Records -/

theorem roundup4_ge (x : Nat) : x ≤ roundup4 x := by
  unfold roundup4
  omega

theorem roundup4_lt (x : Nat) : roundup4 x < x + 4 := by
  unfold roundup4
  omega

/-- Bytes of the name of a record, as `walk_dir` reads it. -/
def nameBytes (fs : Fs) (b : Buf) (off : Nat) : Nat :=
  if fs.hasFiletype then (Dirent.at b off).nameLen
  else (Dirent.at b off).nameLen + (Dirent.at b off).fileType.toNat * 256

/-- The record at `off` is well formed: it lies in its block, and when it is live its name fits. -/
structure RecOk (fs : Fs) (b : Buf) (off : Nat) : Prop where
  ge : 8 ≤ (Dirent.at b off).recLen
  le : off + (Dirent.at b off).recLen ≤ fs.blockSize
  fits : (Dirent.at b off).inode ≠ 0 →
    roundup4 (8 + nameBytes fs b off) ≤ (Dirent.at b off).recLen

/-- The record at `off` has no name that is too long: `dir_add` and `dir_remove` take the length of
a name from one byte. -/
def Short (fs : Fs) (b : Buf) (off : Nat) : Prop :=
  (Dirent.at b off).inode ≠ 0 → nameBytes fs b off ≤ 255

/-- The records at `l`, in order, tile the bytes from `off` to `stop`. -/
inductive Tiles (fs : Fs) (b : Buf) : Nat → List Nat → Nat → Prop where
  | nil (off : Nat) : Tiles fs b off [] off
  | cons {off stop : Nat} {l : List Nat} (hrec : RecOk fs b off)
      (hrest : Tiles fs b (off + (Dirent.at b off).recLen) l stop) : Tiles fs b off (off :: l) stop

/-- The entries of the live records among `l`. -/
def liveEntries (fs : Fs) (b : Buf) (l : List Nat) : List Entry :=
  (l.filter fun off => (Dirent.at b off).inode ≠ 0).map (entryAt fs b)

/-- The block is tiled by records and stands for the entries `es`. -/
def DirBlock (fs : Fs) (b : Buf) (es : List Entry) : Prop :=
  ∃ l, Tiles fs b 0 l fs.blockSize ∧ es = liveEntries fs b l

variable {off : Nat} {b' : Buf} {es : List Entry}

theorem nameAt_congr {off' len : Nat} (h : ∀ k, k < len → b (off + 8 + k) = b' (off' + 8 + k)) :
    nameAt b off len = nameAt b' off' len := by
  apply map_congr_left
  intro i hi
  exact h i (mem_range.mp hi)

theorem entryAt_eq (fs : Fs) (b : Buf) (off : Nat) :
    entryAt fs b off = ⟨nameAt b off (nameBytes fs b off), (Dirent.at b off).inode,
      typeByte fs (Dirent.at b off).fileType⟩ := by
  unfold entryAt nameBytes typeByte
  split <;> rfl

theorem entryAt_length (b : Buf) (off : Nat) :
    (entryAt fs b off).name.length = nameBytes fs b off := by
  rw [entryAt_eq]
  simp [nameAt]

/-- The type byte is the high byte of the length, or no part of it. -/
theorem nameBytes_cases (fs : Fs) (b : Buf) (off : Nat) : (Dirent.at b off).nameLen ≤ 255 ∧
    (nameBytes fs b off = (Dirent.at b off).nameLen ∨
      (Dirent.at b off).nameLen + 256 ≤ nameBytes fs b off) := by
  have hlt : (Dirent.at b off).nameLen < 256 := (b (off + 6)).toNat_lt
  unfold nameBytes
  split <;> omega

/-- The records at `l` tile the bytes from `off` to `stop` and hold the entries `es`. -/
structure Holds (fs : Fs) (b : Buf) (off : Nat) (l : List Nat) (stop : Nat) (es : List Entry) :
    Prop where
  tiles : Tiles fs b off l stop
  live : es = liveEntries fs b l

theorem live_append (l m : List Nat) :
    liveEntries fs b (l ++ m) = liveEntries fs b l ++ liveEntries fs b m := by
  simp [liveEntries]

theorem live_dead (h : (Dirent.at b off).inode = 0) : liveEntries fs b [off] = [] := by
  simp [liveEntries, h]

theorem live_one (h : (Dirent.at b off).inode ≠ 0) :
    liveEntries fs b [off] = [entryAt fs b off] := by
  simp [liveEntries, h]

theorem RecOk.tiles (h : RecOk fs b off) : Tiles fs b off [off] (off + (Dirent.at b off).recLen) :=
  Tiles.cons h (Tiles.nil _)

theorem dirent_resize {c : Buf} {n : Nat} (hlen : (c.get16 (off + 4)).toNat = n)
    (hsame : ∀ k, off ≤ k → k < off + 8 → k < off + 4 ∨ off + 6 ≤ k → c k = b k) :
    Dirent.at c off = { Dirent.at b off with recLen := n } := by
  unfold Dirent.at
  congr 1
  · rw [get32_congr (i := off) (j := off) fun k hk => hsame _ (by omega) (by omega) (by omega)]
  · rw [hsame _ (by omega) (by omega) (by omega)]
  · rw [hsame _ (by omega) (by omega) (by omega)]

theorem nameBytes_resize (fs : Fs) {c : Buf} {n : Nat}
    (h : Dirent.at c off = { Dirent.at b off with recLen := n }) :
    nameBytes fs c off = nameBytes fs b off := by
  unfold nameBytes
  rw [h]

/-- A record of which at most the length changes, and still has room for the name. -/
theorem resize_holds (fs : Fs) {c : Buf} {n : Nat} (hlen : (c.get16 (off + 4)).toNat = n)
    (hsame : ∀ k, off ≤ k → k < off + n → k < off + 4 ∨ off + 6 ≤ k → c k = b k)
    (hge : 8 ≤ n) (hle : off + n ≤ fs.blockSize) (hfits : (Dirent.at b off).inode ≠ 0 →
      roundup4 (8 + nameBytes fs b off) ≤ n) :
    Holds fs c off [off] (off + n) (liveEntries fs b [off]) := by
  have hde := dirent_resize hlen fun k h1 h2 h3 => hsame k h1 (by omega) h3
  have hbytes := nameBytes_resize fs hde
  have hok : RecOk fs c off := by
    refine ⟨?_, ?_, ?_⟩
    · rw [hde]
      exact hge
    · rw [hde]
      exact hle
    · rw [hbytes, hde]
      exact hfits
  have htiles := hok.tiles
  rw [hde] at htiles
  refine ⟨htiles, ?_⟩
  by_cases hlive : (Dirent.at b off).inode = 0
  · rw [live_dead hlive, live_dead (by rw [hde]; exact hlive)]
  have hroom := hfits hlive
  have := roundup4_ge (8 + nameBytes fs b off)
  have hkeep : nameAt c off (nameBytes fs b off) = nameAt b off (nameBytes fs b off) :=
    nameAt_congr fun k hk => hsame _ (by omega) (by omega) (by omega)
  have hlive' : (Dirent.at c off).inode ≠ 0 := by rw [hde]; exact hlive
  rw [live_one hlive, live_one hlive', entryAt_eq, entryAt_eq, hbytes, hkeep, hde]

namespace Tiles

variable {off mid stop : Nat} {l m : List Nat}

theorem le (h : Tiles fs b off l stop) : off ≤ stop := by
  induction h with
  | nil => exact le_refl _
  | cons hrec _ ih =>
    have := hrec.ge
    omega

theorem append (h : Tiles fs b off l mid) (h' : Tiles fs b mid m stop) :
    Tiles fs b off (l ++ m) stop := by
  induction h with
  | nil => exact h'
  | cons hrec _ ih => exact Tiles.cons hrec (ih h')

theorem split {rec : Nat} : ∀ {l : List Nat} {off : Nat}, Tiles fs b off (l ++ rec :: m) stop →
    Tiles fs b off l rec ∧ RecOk fs b rec ∧ Tiles fs b (rec + (Dirent.at b rec).recLen) m stop
  | [], _, h => by
    cases h with
    | cons hrec hrest => exact ⟨Tiles.nil _, hrec, hrest⟩
  | _ :: l, _, h => by
    cases h with
    | cons hrec hrest =>
      obtain ⟨h1, h2, h3⟩ := split (l := l) hrest
      exact ⟨Tiles.cons hrec h1, h2, h3⟩

section

variable (h : Tiles fs b off l stop)
include h

theorem unique (h' : Tiles fs b off m stop) : l = m := by
  induction h generalizing m with
  | nil =>
    cases h' with
    | nil => rfl
    | cons hrec hrest =>
      have := hrec.ge
      have := hrest.le
      omega
  | cons hrec hrest ih =>
    cases h' with
    | nil =>
      have := hrec.ge
      have := hrest.le
      omega
    | cons _ hrest' => rw [ih hrest']

/-- A tiling goes through the end of any other that stops before it. -/
theorem meets {end' : Nat} (h' : Tiles fs b off m end') (hlt : stop < end') : RecOk fs b stop := by
  induction h generalizing m with
  | nil =>
    cases h' with
    | nil => exact absurd hlt (lt_irrefl _)
    | cons hrec _ => exact hrec
  | cons hrec hrest ih =>
    cases h' with
    | nil =>
      have := hrec.ge
      have := hrest.le
      omega
    | cons _ hrest' => exact ih hrest' hlt

theorem four_dvd (hstop : 4 ∣ stop) (hl : ∀ o ∈ l, 4 ∣ o) : 4 ∣ off := by
  cases h with
  | nil => exact hstop
  | cons => exact hl _ mem_cons_self

/-- The records are multiples of 4 bytes long exactly when they stand at multiples of 4. -/
theorem aligned_iff (hoff : 4 ∣ off) (hstop : 4 ∣ stop) :
    (∀ o ∈ l, 4 ∣ (Dirent.at b o).recLen) ↔ ∀ o ∈ l, 4 ∣ o := by
  induction h with
  | nil => simp
  | cons _ hrest ih =>
    rw [forall_mem_cons, forall_mem_cons]
    constructor
    · intro ⟨hlen, hl⟩
      exact ⟨hoff, (ih (Nat.dvd_add hoff hlen) hstop).mp hl⟩
    · intro ⟨_, hl⟩
      have hnext := hrest.four_dvd hstop hl
      exact ⟨(Nat.dvd_add_right hoff).mp hnext, (ih hnext hstop).mpr hl⟩

end

end Tiles

variable {l : List Nat}

theorem Holds.append {mid stop : Nat} {m : List Nat} {es' : List Entry}
    (h : Holds fs b off l mid es) (h' : Holds fs b mid m stop es') :
    Holds fs b off (l ++ m) stop (es ++ es') :=
  ⟨h.tiles.append h'.tiles, by rw [live_append, h.live, h'.live]⟩

theorem Tiles.congr {c : Buf} {stop : Nat} (h : Tiles fs b off l stop)
    (heq : ∀ k, off ≤ k → k < stop → c k = b k) :
    Holds fs c off l stop (liveEntries fs b l) := by
  induction h with
  | nil => exact ⟨Tiles.nil _, rfl⟩
  | @cons off stop l hrec hrest ih =>
    have hle := hrest.le
    have hge := hrec.ge
    have hrec' := resize_holds (b := b) (c := c) fs
      (congrArg UInt16.toNat (get16_congr fun k hk => heq _ (by omega) (by omega)))
      (fun k h1 h2 _ => heq k h1 (Nat.lt_of_lt_of_le h2 hle)) hge hrec.le hrec.fits
    have happ := hrec'.append (ih fun k h1 h2 => heq k (by omega) h2)
    rw [← live_append] at happ
    exact happ

/-! ## Walking -/

/-- Fold over entries with a callback that can stop the walk. -/
def foldStop {σ : Type} (fn : σ → Entry → σ × Bool) : σ → List Entry → σ × Bool
  | ctx, [] => (ctx, false)
  | ctx, e :: es =>
    match fn ctx e with
    | (ctx, true) => (ctx, true)
    | (ctx, false) => foldStop fn ctx es

theorem foldStop_append {σ : Type} (fn : σ → Entry → σ × Bool) (es es' : List Entry) :
    ∀ ctx, foldStop fn ctx (es ++ es') =
      match foldStop fn ctx es with
      | (ctx, true) => (ctx, true)
      | (ctx, false) => foldStop fn ctx es' := by
  induction es with
  | nil => exact fun ctx => rfl
  | cons e es ih =>
    intro ctx
    simp only [cons_append, foldStop]
    cases h : fn ctx e with
    | mk ctx' stop =>
      cases stop with
      | true => rfl
      | false => exact ih ctx'

/-- The records that the record loop of `walk_dir` shows a callback that does not stop it. -/
def shown (fs : Fs) (b : Buf) : Nat → Nat → List Nat
  | 0, _ => []
  | fuel + 1, off =>
    if off + 8 ≤ fs.blockSize then
      if (Dirent.at b off).recLen < 8 then []
      else if (Dirent.at b off).inode = 0 then shown fs b fuel (off + (Dirent.at b off).recLen)
      else off :: shown fs b fuel (off + (Dirent.at b off).recLen)
    else []

theorem walkRecords_eq {σ : Type} (fn : σ → Entry → σ × Bool) (fuel : Nat) :
    ∀ off ctx, walkRecords fs b fn fuel off ctx =
      foldStop fn ctx ((shown fs b fuel off).map (entryAt fs b)) := by
  induction fuel with
  | zero => exact fun off ctx => rfl
  | succ fuel ih =>
    intro off ctx
    unfold walkRecords shown
    by_cases hin : off + 8 ≤ fs.blockSize
    swap
    · rw [if_neg hin, if_neg hin]
      rfl
    rw [if_pos hin, if_pos hin]
    by_cases hlen : (Dirent.at b off).recLen < 8
    · rw [if_pos hlen, if_pos hlen]
      rfl
    rw [if_neg hlen, if_neg hlen]
    by_cases hlive : (Dirent.at b off).inode = 0
    · rw [if_pos hlive, if_pos hlive]
      exact ih _ ctx
    rw [if_neg hlive, if_neg hlive, map_cons]
    simp only [foldStop]
    cases hfn : fn ctx (entryAt fs b off) with
    | mk ctx' stop =>
      cases stop with
      | true => rfl
      | false => exact ih _ ctx'

theorem shown_eq (h : Tiles fs b off l fs.blockSize) :
    ∀ fuel, fs.blockSize - off ≤ 8 * fuel →
      shown fs b fuel off = l.filter fun o => (Dirent.at b o).inode ≠ 0 := by
  generalize hstop : fs.blockSize = stop at h
  induction h with
  | nil off =>
    intro fuel _
    subst hstop
    cases fuel with
    | zero => rfl
    | succ fuel =>
      unfold shown
      rw [if_neg (by omega)]
      rfl
  | @cons off stop l hrec hrest ih =>
    subst hstop
    intro fuel hfuel
    have hge := hrec.ge
    have hle := hrec.le
    cases fuel with
    | zero => omega
    | succ fuel =>
      unfold shown
      rw [if_pos (by omega), if_neg (by omega), ih rfl fuel (by omega), filter_cons]
      by_cases hlive : (Dirent.at b off).inode = 0 <;> simp [hlive]

/-! ## Storing a record -/

section putDirent

variable {off inode recLen : Nat} {name : List UInt8} {type : UInt8}

theorem putDirent_of_notMem {k : Nat} (h : k < off ∨ off + 8 + name.length ≤ k) :
    putDirent b off inode recLen name type k = b k := by
  unfold putDirent put32 put16 put8
  rw [blit_of_notMem (by omega), blit_of_notMem (by omega), blit_of_notMem (by omega),
    blit_of_notMem (by omega), blit_of_notMem (by omega)]

theorem putDirent_at (b : Buf) (off recLen : Nat) (name : List UInt8) (type : UInt8)
    (hinode : inode < 2 ^ 32) (hrec : recLen < 2 ^ 16)
    (hname : name.length < 256) : Dirent.at (putDirent b off inode recLen name type) off =
      ⟨inode, recLen, name.length, type⟩ := by
  unfold Dirent.at putDirent put8
  congr 1
  · rw [get32_blit_out (by omega), get32_blit_out (by omega), get32_blit_out (by omega),
      get32_put16_of_ne (by omega), get32_put32]
    exact UInt32.toNat_ofNat_of_lt' hinode
  · rw [get16_blit_out (by omega), get16_blit_out (by omega), get16_blit_out (by omega),
      get16_put16]
    exact UInt16.toNat_ofNat_of_lt' hrec
  · rw [blit_of_notMem (by omega), blit_of_notMem (by omega), blit_of_mem (by omega)]
    exact UInt8.toNat_ofNat_of_lt' hname
  · rw [blit_of_notMem (by omega), blit_of_mem (by omega)]

theorem nameAt_putDirent :
    nameAt (putDirent b off inode recLen name type) off name.length = name := by
  unfold nameAt putDirent
  apply ext_getElem?
  intro i
  by_cases hi : i < name.length
  · rw [getElem?_map, getElem?_range hi, Option.map_some, blit_of_mem (by omega),
      Nat.add_sub_cancel_left, List.getD_eq_getElem?_getD, List.getElem?_eq_getElem hi]
    rfl
  · rw [getElem?_eq_none (by simp; omega), getElem?_eq_none (by omega)]

theorem typeByte_typeByte (fs : Fs) (type : UInt8) :
    typeByte fs (typeByte fs type) = typeByte fs type := by
  unfold typeByte
  split <;> rfl

theorem putDirent_holds (fs : Fs) (b : Buf) (off recLen : Nat) (name : List UInt8) (type : UInt8)
    (hinode : inode < 2 ^ 32) (hpos : inode ≠ 0) (hrec : recLen < 2 ^ 16)
    (hname : name.length < 256) (hfits : roundup4 (8 + name.length) ≤ recLen)
    (hle : off + recLen ≤ fs.blockSize) :
    Holds fs (putDirent b off inode recLen name (typeByte fs type)) off [off] (off + recLen)
      [⟨name, inode, typeByte fs type⟩] := by
  have hat := putDirent_at b off recLen name (typeByte fs type) hinode hrec hname
  have hge := roundup4_ge (8 + name.length)
  have hbytes : nameBytes fs (putDirent b off inode recLen name (typeByte fs type)) off =
      name.length := by
    unfold nameBytes
    rw [hat]
    unfold typeByte
    split <;> simp
  have hok : RecOk fs (putDirent b off inode recLen name (typeByte fs type)) off := by
    refine ⟨?_, ?_, fun _ => ?_⟩ <;> rw [hat]
    · show 8 ≤ recLen
      omega
    · exact hle
    · rw [hbytes]
      exact hfits
  have hlive : (Dirent.at (putDirent b off inode recLen name (typeByte fs type)) off).inode ≠ 0 := by
    rw [hat]
    exact hpos
  have htiles := hok.tiles
  rw [hat] at htiles
  refine ⟨htiles, ?_⟩
  rw [live_one hlive, entryAt_eq, hbytes, hat, typeByte_typeByte]
  exact congrArg (fun n => [Entry.mk n inode _]) nameAt_putDirent.symm

end putDirent

/-! ## Inserting -/

/-- Bytes of the record at `off` that are taken. -/
def usedAt (b : Buf) (off : Nat) : Nat :=
  if (Dirent.at b off).inode = 0 then 0 else roundup4 (8 + (Dirent.at b off).nameLen)

/-- The record at `off` has room for another one with a name of this length. -/
def HasRoom (b : Buf) (name : List UInt8) (off : Nat) : Prop :=
  roundup4 (8 + name.length) ≤ (Dirent.at b off).recLen - usedAt b off

instance (b : Buf) (name : List UInt8) (off : Nat) : Decidable (HasRoom b name off) := by
  unfold HasRoom; infer_instance

/-- The block after `dir_add` has used the record at `off`. -/
def insertRec (fs : Fs) (b : Buf) (name : List UInt8) (child : Nat) (type : UInt8) (off : Nat) :
    Buf :=
  if (Dirent.at b off).inode = 0 then
    putDirent b off child (Dirent.at b off).recLen name (typeByte fs type)
  else
    putDirent (b.put16 (off + 4) (UInt16.ofNat (usedAt b off))) (off + usedAt b off) child
      ((Dirent.at b off).recLen - usedAt b off) name (typeByte fs type)

theorem recLen_lt (b : Buf) (off : Nat) : (Dirent.at b off).recLen < 2 ^ 16 :=
  (b.get16 (off + 4)).toNat_lt

theorem RecOk.used_le (h : RecOk fs b off) : usedAt b off ≤ (Dirent.at b off).recLen := by
  unfold usedAt
  split
  · exact Nat.zero_le _
  · have hfits := h.fits (by assumption)
    have := nameBytes_cases fs b off
    unfold roundup4 at hfits ⊢
    omega

theorem addInBlock_eq (name : List UInt8) (child : Nat) (type : UInt8)
    (h : Tiles fs b off l fs.blockSize) :
    ∀ fuel, fs.blockSize - off ≤ 8 * fuel →
      addInBlock fs b name child type fuel off =
        (l.find? fun o => HasRoom b name o).map (insertRec fs b name child type) := by
  generalize hstop : fs.blockSize = stop at h
  induction h with
  | nil off =>
    intro fuel _
    subst hstop
    cases fuel with
    | zero => rfl
    | succ fuel =>
      unfold addInBlock
      rw [if_neg (by omega)]
      rfl
  | @cons off stop l hrec hrest ih =>
    subst hstop
    intro fuel hfuel
    have hge := hrec.ge
    have hle := hrec.le
    have hlen := recLen_lt b off
    have hused := hrec.used_le
    cases fuel with
    | zero => omega
    | succ fuel =>
      have hsub : u32 (2 ^ 32 + (Dirent.at b off).recLen - usedAt b off) =
          (Dirent.at b off).recLen - usedAt b off := by
        unfold u32
        omega
      unfold addInBlock
      rw [if_pos (by omega), find?_cons]
      dsimp only
      rw [if_neg (by omega)]
      rw [show (if (Dirent.at b off).inode = 0 then 0
        else roundup4 (8 + (Dirent.at b off).nameLen)) = usedAt b off from rfl, hsub]
      change (if HasRoom b name off then _ else _) = _
      by_cases hroom : HasRoom b name off
      · rw [if_pos hroom]
        simp only [hroom, decide_true, Option.map_some]
        unfold insertRec
        split <;> rfl
      · rw [if_neg hroom]
        simp only [hroom, decide_false]
        exact ih rfl fuel (by omega)

variable {name : List UInt8} {child : Nat} {type : UInt8}

/-- A live record is cut to what `dir_add` takes for its length. The new one takes the rest. -/
theorem insertRec_live (fs : Fs) (child : Nat) (type : UInt8) (hlive : (Dirent.at b off).inode ≠ 0)
    (hroom : HasRoom b name off) :
    ((insertRec fs b name child type off).get16 (off + 4)).toNat = usedAt b off ∧
      ∀ k, k < off + 4 ∨ off + 6 ≤ k ∧ k < off + usedAt b off ∨
        off + (Dirent.at b off).recLen ≤ k → insertRec fs b name child type off k = b k := by
  have hlen := recLen_lt b off
  have hneed := roundup4_ge (8 + name.length)
  have hused : usedAt b off = roundup4 (8 + (Dirent.at b off).nameLen) := if_neg hlive
  have hge := roundup4_ge (8 + (Dirent.at b off).nameLen)
  unfold HasRoom at hroom
  unfold insertRec
  rw [if_neg hlive]
  constructor
  · rw [get16_congr (i := off + 4) fun k hk => putDirent_of_notMem (by omega), get16_put16]
    exact UInt16.toNat_ofNat_of_lt' (show usedAt b off < 2 ^ 16 by omega)
  · intro k hk
    rw [putDirent_of_notMem (by omega), put16, blit_of_notMem (by omega)]

/-- **Inserting a record** keeps the tiling and adds one entry, right after the record used. The
new record stands there too, or where the part in use of that record ends. -/
theorem insertRec_tiles (hbs : fs.blockSize ≤ 32768) {pre post : List Nat}
    (h : Tiles fs b 0 (pre ++ off :: post) fs.blockSize) (hroom : HasRoom b name off)
    (hshort : Short fs b off) (hname : name.length < 256) (hchild : child < 2 ^ 32) (hpos : child ≠ 0) :
    ∃ l, Holds fs (insertRec fs b name child type off) 0 l fs.blockSize (liveEntries fs b
        (pre ++ [off]) ++ ⟨name, child, typeByte fs type⟩ :: liveEntries fs b post) ∧
      ∀ o ∈ l, o ∈ pre ++ off :: post ∨ o = off + usedAt b off := by
  obtain ⟨hpre, hrec, hpost⟩ := h.split
  have hle := hrec.le
  have hlen := recLen_lt b off
  have hneed := roundup4_ge (8 + name.length)
  rw [live_append]
  by_cases hdead : (Dirent.at b off).inode = 0
  · -- the whole empty slot is reused
    unfold HasRoom at hroom
    unfold insertRec
    rw [if_pos hdead, live_dead hdead, append_nil]
    have hused : usedAt b off = 0 := if_pos hdead
    rw [hused, Nat.sub_zero] at hroom
    have hnew := putDirent_holds fs b off (Dirent.at b off).recLen name type hchild hpos hlen hname
      hroom hle
    set b' := putDirent b off child (Dirent.at b off).recLen name (typeByte fs type) with hb'
    have hpre' := hpre.congr (c := b') fun k _ hk => putDirent_of_notMem (by omega)
    have hpost' := hpost.congr (c := b') fun k hk _ => putDirent_of_notMem (by omega)
    exact ⟨pre ++ off :: post, hpre'.append (hnew.append hpost'), fun o ho => .inl ho⟩
  · -- the live record keeps what it needs
    obtain ⟨hfield, hsame⟩ := insertRec_live fs child type hdead hroom
    have hused : usedAt b off = roundup4 (8 + (Dirent.at b off).nameLen) := if_neg hdead
    have hge := roundup4_ge (8 + (Dirent.at b off).nameLen)
    have hfits := hrec.used_le
    have hbytes : nameBytes fs b off = (Dirent.at b off).nameLen := by
      have := hshort hdead
      have := nameBytes_cases fs b off
      omega
    unfold HasRoom at hroom
    have hnew := putDirent_holds fs (b.put16 (off + 4) (UInt16.ofNat (usedAt b off)))
      (off + usedAt b off) ((Dirent.at b off).recLen - usedAt b off) name type hchild hpos
      (by omega) hname hroom (by omega)
    have hb' : insertRec fs b name child type off = _ := if_neg hdead
    rw [← hb', Nat.add_assoc, Nat.add_sub_cancel' hfits] at hnew
    have hold := resize_holds fs hfield (fun k _ _ hk => hsame k (by omega)) (by omega)
      (by omega) fun _ => by rw [hbytes, hused]
    have hpre' := hpre.congr fun k _ hk => hsame k (by omega)
    have hpost' := hpost.congr fun k hk _ => hsame k (by omega)
    refine ⟨_, (hpre'.append hold).append (hnew.append hpost'), fun o ho => ?_⟩
    simp only [mem_append, mem_cons] at ho ⊢
    tauto

/-- A record whose name is too long is cut short of it. -/
theorem insertRec_not_tiles {pre post : List Nat}
    (h : Tiles fs b 0 (pre ++ off :: post) fs.blockSize) (hroom : HasRoom b name off)
    (hlong : ¬ Short fs b off) :
    ¬ Tiles fs (insertRec fs b name child type off) 0 l fs.blockSize := by
  intro hl
  obtain ⟨hlive, hbig⟩ := Classical.not_imp.mp hlong
  obtain ⟨hpre, hrec, _⟩ := h.split
  obtain ⟨hfield, hsame⟩ := insertRec_live fs child type hlive hroom
  have hge := hrec.ge
  have hle := hrec.le
  have hcases := nameBytes_cases fs b off
  have hused : usedAt b off = roundup4 (8 + (Dirent.at b off).nameLen) := if_neg hlive
  have hused8 := roundup4_ge (8 + (Dirent.at b off).nameLen)
  -- the loop still comes to this record, and finds it with the length of the cut
  have hcut := (hpre.congr fun k _ hk => hsame k (by omega)).tiles.meets hl (by omega)
  have hde := dirent_resize hfield fun k h1 h2 h3 => hsame k (by omega)
  have hfits := hcut.fits (by rw [hde]; exact hlive)
  rw [nameBytes_resize fs hde, hde] at hfits
  change roundup4 (8 + nameBytes fs b off) ≤ usedAt b off at hfits
  rw [hused] at hfits
  unfold roundup4 at hfits
  omega

theorem maxRecords_ge (hbs : 8 ∣ fs.blockSize) : fs.blockSize - 0 ≤ 8 * fs.maxRecords := by
  unfold Fs.maxRecords
  omega

theorem four_dvd_usedAt (b : Buf) (off : Nat) : 4 ∣ usedAt b off := by
  unfold usedAt
  split
  · exact dvd_zero 4
  · exact dvd_mul_left 4 _

/-- Every record of the block is a multiple of 4 bytes long. -/
def Aligned (fs : Fs) (b : Buf) : Prop :=
  ∀ l, Tiles fs b 0 l fs.blockSize → ∀ o ∈ l, 4 ∣ (Dirent.at b o).recLen

theorem aligned_iff (hdvd : 8 ∣ fs.blockSize) (h : Tiles fs b 0 l fs.blockSize) :
    Aligned fs b ↔ ∀ o ∈ l, 4 ∣ o := by
  rw [← h.aligned_iff (dvd_zero 4) (dvd_trans (by decide) hdvd)]
  exact ⟨fun hb => hb l h, fun hl l' h' => h.unique h' ▸ hl⟩

/-- **`dir_add` in one block** inserts one entry, if the record it picks is not cut short. -/
theorem insertRec_dirBlock (hbs : fs.blockSize ≤ 32768) (hdvd : 8 ∣ fs.blockSize)
    (h : Tiles fs b 0 l fs.blockSize) (hfind : l.find? (fun o => HasRoom b name o) = some off)
    (hshort : Short fs b off) (hname : name.length < 256) (hchild : child < 2 ^ 32)
    (hpos : child ≠ 0) :
    ∃ es₁ es₂, liveEntries fs b l = es₁ ++ es₂ ∧
      DirBlock fs (insertRec fs b name child type off)
        (es₁ ++ ⟨name, child, typeByte fs type⟩ :: es₂) ∧
      (Aligned fs b → Aligned fs (insertRec fs b name child type off)) := by
  have hroom := find?_some hfind
  obtain ⟨pre, post, rfl⟩ := append_of_mem (mem_of_find?_eq_some hfind)
  obtain ⟨l, ⟨hnew, hlive⟩, hmem⟩ :=
    insertRec_tiles hbs h (of_decide_eq_true hroom) hshort hname hchild hpos
  refine ⟨liveEntries fs b (pre ++ [off]), liveEntries fs b post, ?_, ⟨l, hnew, hlive⟩, ?_⟩
  · rw [← live_append, append_assoc]
    rfl
  · rw [aligned_iff hdvd h, aligned_iff hdvd hnew]
    intro hold o ho
    rcases hmem o ho with ho | rfl
    · exact hold o ho
    · exact Nat.dvd_add (hold off (by simp)) (four_dvd_usedAt b off)

/-! ## Removing -/

/-- The record at `off` is live and has this name. -/
def Matches (b : Buf) (name : List UInt8) (off : Nat) : Prop :=
  (Dirent.at b off).inode ≠ 0 ∧ nameAt b off (Dirent.at b off).nameLen = name

instance (b : Buf) (name : List UInt8) (off : Nat) : Decidable (Matches b name off) := by
  unfold Matches; infer_instance

/-- A record that `dir_remove` matches is shown under that name unless its own is longer. -/
theorem Matches.name_iff (h : Matches b name off) :
    (entryAt fs b off).name = name ↔ Short fs b off := by
  have hcases := nameBytes_cases fs b off
  constructor
  · intro heq _
    have hlen := congrArg length heq
    rw [entryAt_length, ← h.2, nameAt, length_map, length_range] at hlen
    omega
  · intro hshort
    have := hshort h.1
    rw [entryAt_eq, ← h.2, show nameBytes fs b off = (Dirent.at b off).nameLen by omega]

theorem matches_of_name (hlive : (Dirent.at b off).inode ≠ 0) (hshort : nameBytes fs b off ≤ 255)
    (heq : (entryAt fs b off).name = name) : Matches b name off := by
  have hcases := nameBytes_cases fs b off
  rw [entryAt_eq, show nameBytes fs b off = (Dirent.at b off).nameLen by omega] at heq
  exact ⟨hlive, heq⟩

/-- The block after `dir_remove` has taken out the record at `off`, whose predecessor in the
block is `prev`. -/
def removeRec (b : Buf) (prev : Option Nat) (off : Nat) : Buf :=
  match prev with
  | some p => b.put16 (p + 4) (UInt16.ofNat ((Dirent.at b p).recLen + (Dirent.at b off).recLen))
  | none => b.put32 off 0

/-- The record loop of `dir_remove` takes out the first record with the name. -/
theorem removeInBlock_eq (name : List UInt8) (h : Tiles fs b off l fs.blockSize) :
    ∀ fuel prev, fs.blockSize - off ≤ 8 * fuel →
      (removeInBlock fs b name fuel off prev = none ∧ l.find? (fun o => Matches b name o) = none) ∨
      ∃ pre o post, l = pre ++ o :: post ∧ l.find? (fun o => Matches b name o) = some o ∧
        removeInBlock fs b name fuel off prev =
          some (removeRec b (pre.getLast?.or prev) o) := by
  generalize hstop : fs.blockSize = stop at h
  induction h with
  | nil off =>
    intro fuel prev _
    subst hstop
    left
    refine ⟨?_, rfl⟩
    cases fuel with
    | zero => rfl
    | succ fuel =>
      unfold removeInBlock
      rw [if_neg (by omega)]
  | @cons off stop l hrec hrest ih =>
    subst hstop
    intro fuel prev hfuel
    have hge := hrec.ge
    have hle := hrec.le
    cases fuel with
    | zero => omega
    | succ fuel =>
      unfold removeInBlock
      rw [if_pos (by omega)]
      rw [if_neg (by omega)]
      change (ite (Matches b name off) _ _ = _ ∧ _) ∨ ∃ pre o post, _ ∧ _ ∧
        ite (Matches b name off) _ _ = _
      by_cases hm : Matches b name off
      · right
        refine ⟨[], off, l, rfl, find?_cons_of_pos (decide_eq_true hm), ?_⟩
        rw [if_pos hm]
        cases prev <;> rfl
      rw [if_neg hm, find?_cons_of_neg (by simpa using hm)]
      rcases ih rfl fuel (some off) (by omega) with hnone | ⟨pre, o, post, rfl, ho, hsome⟩
      · exact .inl hnone
      right
      refine ⟨off :: pre, o, post, rfl, ho, ?_⟩
      rw [hsome]
      cases pre with
      | nil => rfl
      | cons p pre => simp [getLast?_cons]

/-- **Removing a record** keeps the tiling and takes out its entry; no record moves. -/
theorem removeRec_tiles (hbs : fs.blockSize ≤ 32768) {pre post : List Nat}
    (h : Tiles fs b 0 (pre ++ off :: post) fs.blockSize) :
    ∃ l, Holds fs (removeRec b (pre.getLast?.or none) off) 0 l fs.blockSize
        (liveEntries fs b pre ++ liveEntries fs b post) ∧ ∀ o ∈ l, o ∈ pre ++ off :: post := by
  obtain ⟨hpre, hrec, hpost⟩ := h.split
  have hlen := recLen_lt b off
  have hge := hrec.ge
  have hle := hrec.le
  rcases eq_nil_or_concat pre with rfl | ⟨pre, p, rfl⟩
  · -- the first record of the block: only its inode field is cleared
    cases hpre
    show ∃ l, Holds fs (b.put32 0 0) 0 l fs.blockSize _ ∧ _
    set b' := b.put32 0 0 with hb'
    have hat : Dirent.at b' 0 = ⟨0, (Dirent.at b 0).recLen, (Dirent.at b 0).nameLen,
        (Dirent.at b 0).fileType⟩ := rfl
    have hok : RecOk fs b' 0 := by
      refine ⟨?_, ?_, ?_⟩ <;> rw [hat]
      · exact hrec.ge
      · exact hrec.le
      · exact fun hne => absurd rfl hne
    have hpost' := hpost.congr (c := b') fun k hk _ => by
      rw [hb', put32, blit_of_notMem (by omega)]
    have hdead : Holds fs b' 0 [0] _ [] := ⟨hok.tiles, (live_dead rfl).symm⟩
    exact ⟨0 :: post, hdead.append hpost', fun o ho => ho⟩
  · -- the record before it absorbs it
    rw [concat_eq_append] at hpre ⊢
    obtain ⟨hfront, hprec, hgap⟩ := hpre.split
    cases hgap
    have hpge := hprec.ge
    have hplen := recLen_lt b p
    set b' := b.put16 (p + 4) (UInt16.ofNat ((Dirent.at b p).recLen +
      (Dirent.at b (p + (Dirent.at b p).recLen)).recLen)) with hb'
    have hremove : removeRec b ((pre ++ [p]).getLast?.or none) (p + (Dirent.at b p).recLen) = b' := by
      simp [removeRec, hb']
    rw [hremove]
    have hsame : ∀ k, k < p + 4 ∨ p + 6 ≤ k → b' k = b k := fun k hk => by
      rw [hb', put16, blit_of_notMem (by omega)]
    have hfield : (b'.get16 (p + 4)).toNat = (Dirent.at b p).recLen +
        (Dirent.at b (p + (Dirent.at b p).recLen)).recLen := by
      rw [hb', get16_put16]
      exact UInt16.toNat_ofNat_of_lt' (show _ < 2 ^ 16 by omega)
    have hp' := resize_holds fs hfield (fun k _ _ hk => hsame _ hk) (by omega)
      (by omega) fun hlive => by
        have := hprec.fits hlive
        omega
    rw [← add_assoc] at hp'
    have hfront' := hfront.congr (c := b') fun k _ hk => hsame _ (by omega)
    have hpost' := hpost.congr (c := b') fun k hk _ => hsame _ (by omega)
    rw [live_append]
    refine ⟨_, (hfront'.append hp').append hpost', fun o ho => ?_⟩
    simp only [mem_append, mem_cons] at ho ⊢
    tauto

/-- **`dir_remove` in one block** takes out the entry of the first record it matches. -/
theorem removeInBlock_dirBlock (name : List UInt8) (hbs : fs.blockSize ≤ 32768)
    (hdvd : 8 ∣ fs.blockSize) (h : Tiles fs b 0 l fs.blockSize) :
    (removeInBlock fs b name fs.maxRecords 0 none = none ∧
      l.find? (fun o => Matches b name o) = none) ∨
    ∃ b' o es₁ es₂, removeInBlock fs b name fs.maxRecords 0 none = some b' ∧
      l.find? (fun o => Matches b name o) = some o ∧
      liveEntries fs b l = es₁ ++ entryAt fs b o :: es₂ ∧ DirBlock fs b' (es₁ ++ es₂) ∧
      (Aligned fs b → Aligned fs b') := by
  rcases removeInBlock_eq name h _ none (maxRecords_ge hdvd) with
    hnone | ⟨pre, o, post, rfl, hfind, hsome⟩
  · exact .inl hnone
  right
  obtain ⟨l, ⟨hnew, hlive⟩, hmem⟩ := removeRec_tiles hbs h
  refine ⟨_, o, liveEntries fs b pre, liveEntries fs b post, hsome, hfind, ?_, ⟨l, hnew, hlive⟩, ?_⟩
  · have hm := find?_some hfind
    rw [live_append, ← singleton_append, live_append, live_one (of_decide_eq_true hm).1]
    rfl
  · rw [aligned_iff hdvd h, aligned_iff hdvd hnew]
    exact fun hold o ho => hold o (hmem o ho)

/-! ## Blocks as a whole -/

namespace DirBlock

variable {es : List Entry}

theorem congr (h : DirBlock fs b es) (heq : ∀ k, k < fs.blockSize → b' k = b k) :
    DirBlock fs b' es := by
  obtain ⟨l, htiles, rfl⟩ := h
  obtain ⟨ht, hl⟩ := htiles.congr (c := b') fun k _ hk => heq k hk
  exact ⟨l, ht, hl⟩

theorem take (h : DirBlock fs b es) : DirBlock fs (b.take fs.blockSize) es :=
  h.congr fun _ hk => take_of_lt b hk

theorem aligned_take (h : DirBlock fs b es) (hdvd : 8 ∣ fs.blockSize) (hb : Aligned fs b) :
    Aligned fs (b.take fs.blockSize) := by
  obtain ⟨l, htiles, rfl⟩ := h
  obtain ⟨ht, _⟩ := htiles.congr (c := b.take fs.blockSize) fun k _ hk => take_of_lt b hk
  exact (aligned_iff hdvd ht).mpr ((aligned_iff hdvd htiles).mp hb)

end DirBlock

/-- The entries of a directory block, by the record loop of `walk_dir`. -/
def blockEntries (fs : Fs) (b : Buf) : List Entry :=
  (walkRecords fs b (fun out e => (out ++ [e], false)) fs.maxRecords 0 []).1

theorem foldStop_collect (es : List Entry) : ∀ out : List Entry,
    foldStop (fun out e => (out ++ [e], false)) out es = (out ++ es, false) := by
  induction es with
  | nil => exact fun out => by simp [foldStop]
  | cons e es ih =>
    intro out
    simp only [foldStop]
    rw [ih]
    simp

theorem blockEntries_eq (fs : Fs) (b : Buf) :
    blockEntries fs b = (shown fs b fs.maxRecords 0).map (entryAt fs b) := by
  unfold blockEntries
  rw [walkRecords_eq, foldStop_collect]
  rfl

theorem DirBlock.entries (h : DirBlock fs b es) (hdvd : 8 ∣ fs.blockSize) :
    blockEntries fs b = es := by
  obtain ⟨l, htiles, rfl⟩ := h
  rw [blockEntries_eq, shown_eq htiles _ (maxRecords_ge hdvd)]
  rfl

theorem grown_dirBlock (hbs : fs.blockSize ≤ 32768) (hge : 1024 ≤ fs.blockSize)
    (hname : name.length < 256) (hchild : child < 2 ^ 32) (hpos : child ≠ 0) :
    DirBlock fs (putDirent Buf.zero 0 child fs.blockSize name (typeByte fs type))
        [⟨name, child, typeByte fs type⟩] ∧
      (8 ∣ fs.blockSize →
        Aligned fs (putDirent Buf.zero 0 child fs.blockSize name (typeByte fs type))) := by
  have hlt := roundup4_lt (8 + name.length)
  have hnew := putDirent_holds fs zero 0 fs.blockSize name type hchild hpos (by omega) hname
    (by omega) (by omega)
  rw [zero_add] at hnew
  exact ⟨⟨[0], hnew.tiles, hnew.live⟩, fun hdvd => (aligned_iff hdvd hnew.tiles).mpr (by simp)⟩

theorem initDirBlock_dirBlock (hbs : fs.blockSize ≤ 32768) (hge : 1024 ≤ fs.blockSize)
    {num parent : Nat} (hnum : num < 2 ^ 32) (hnum0 : num ≠ 0) (hparent : parent < 2 ^ 32)
    (hparent0 : parent ≠ 0) :
    DirBlock fs (initDirBlock fs num parent)
      [⟨[46], num, typeByte fs FT_DIR⟩, ⟨[46, 46], parent, typeByte fs FT_DIR⟩] := by
  have hdot : roundup4 (8 + 1) = 12 := rfl
  have hdd : roundup4 (8 + 2) = 12 := rfl
  unfold initDirBlock
  rw [hdot]
  set b1 := putDirent zero 0 num 12 [46] (typeByte fs FT_DIR)
  have h1 : Holds fs b1 0 [0] 12 _ := putDirent_holds fs zero 0 12 [46] FT_DIR hnum hnum0
    (by decide) (by decide) (by decide) (by omega)
  have h2 := putDirent_holds fs b1 12 (fs.blockSize - 12) [46, 46] FT_DIR hparent hparent0
    (by omega) (by decide) (show roundup4 (8 + 2) ≤ _ by rw [hdd]; omega) (by omega)
  rw [show 12 + (fs.blockSize - 12) = fs.blockSize by omega] at h2
  -- the second record leaves the first one alone
  set b' := putDirent b1 12 parent (fs.blockSize - 12) [46, 46] (typeByte fs FT_DIR)
  have h1' := h1.tiles.congr (c := b') fun k _ hk => putDirent_of_notMem (.inl hk)
  rw [← h1.live] at h1'
  have hboth := h1'.append h2
  exact ⟨_, hboth.tiles, hboth.live⟩

end JuampiOs.Ext2
