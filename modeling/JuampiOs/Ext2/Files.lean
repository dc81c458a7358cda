import JuampiOs.Ext2.Owners
import JuampiOs.Ext2.Reading

/-!
# Reading files

The logical blocks of a file and its bytes, and the rules for the functions that read them:
`block_of`, `map_blocks` and `read_file`.
-/

namespace JuampiOs.Ext2

open Lib List

variable {fs : Fs} {G : Layout fs} {v : View} {ino : Inode} {bs : Nat} {ok : Nat → Prop}
  {data : Nat → Buf}

/-! ## Logical blocks -/

/-- Where the driver looks for logical block `n`. -/
def fileSlot (fs : Fs) (n : Nat) : Option PtrSlot :=
  if n < 12 then some (n, [])
  else if n - 12 < fs.per then some (12, [n - 12])
  else if n - 12 - fs.per < fs.per * fs.per then
    some (13, [(n - 12 - fs.per) / fs.per, (n - 12 - fs.per) % fs.per])
  else none

/-- The disk block of logical block `n`; 0 is a hole or out of the driver's range. -/
def fileBlk (fs : Fs) (data : Nat → Buf) (ino : Inode) (n : Nat) : Nat :=
  match fileSlot fs n with
  | some σ => ref data ino σ
  | none => 0

variable {n i : Nat}

variable {σ : PtrSlot}

theorem fileSlot_some (h : fileSlot fs n = some σ) :
    (n < 12 ∧ σ = (n, [])) ∨ (∃ i, i < fs.per ∧ n = 12 + i ∧ σ = (12, [i])) ∨
      ∃ i j, i < fs.per ∧ j < fs.per ∧ n = 12 + fs.per + (i * fs.per + j) ∧ σ = (13, [i, j]) := by
  unfold fileSlot at h
  split at h
  · exact .inl ⟨by assumption, (Option.some.inj h).symm⟩
  split at h
  · exact .inr (.inl ⟨_, by assumption, by omega, (Option.some.inj h).symm⟩)
  split at h
  · rename_i hlt
    have hpos : 0 < fs.per := pos_of_ne_zero (by rintro h0; simp [h0] at hlt)
    refine .inr (.inr ⟨_, _, Nat.div_lt_of_lt_mul hlt, Nat.mod_lt _ hpos, ?_,
      (Option.some.inj h).symm⟩)
    rw [Nat.div_add_mod']
    omega
  · cases h

theorem slotOk_root {r : Nat} (h : r < 15) : SlotOk fs (r, []) := ⟨h, Nat.zero_le _, by simp⟩

theorem fileSlot_ok (h : fileSlot fs n = some σ) : SlotOk fs σ := by
  rcases fileSlot_some h with ⟨hlt, rfl⟩ | ⟨i, hi, _, rfl⟩ | ⟨i, j, hi, hj, _, rfl⟩
  · exact slotOk_root (by omega)
  · exact ⟨show 12 < 15 by decide, le_refl 1, by simpa⟩
  · exact ⟨show 13 < 15 by decide, le_refl 2, by simp [hi, hj]⟩

theorem fileSlot_leaf (h : fileSlot fs n = some σ) :
    σ.1 < 14 ∧ σ.2.length = σ.1 - 11 := by
  rcases fileSlot_some h with ⟨hlt, rfl⟩ | ⟨i, hi, _, rfl⟩ | ⟨i, j, hi, hj, _, rfl⟩
  · exact ⟨show n < 14 by omega, show 0 = n - 11 by omega⟩
  · exact ⟨show 12 < 14 by decide, rfl⟩
  · exact ⟨show 13 < 14 by decide, rfl⟩

/-- The logical block at a place. -/
def slotIndex (fs : Fs) : PtrSlot → Nat
  | (r, []) => r
  | (_, [i]) => 12 + i
  | (_, i :: j :: _) => 12 + fs.per + (i * fs.per + j)

theorem slotIndex_fileSlot (h : fileSlot fs n = some σ) : slotIndex fs σ = n := by
  rcases fileSlot_some h with ⟨_, rfl⟩ | ⟨i, _, rfl, rfl⟩ | ⟨i, j, _, _, rfl, rfl⟩ <;> rfl

theorem fileSlot_inj {m : Nat} (hn : fileSlot fs n = some σ)
    (hm : fileSlot fs m = some σ) : n = m :=
  (slotIndex_fileSlot hn).symm.trans (slotIndex_fileSlot hm)

theorem walkPtr_lt (data : Nat → Buf) : ∀ (is : List Nat) (b : Nat), b < 2 ^ 32 →
    walkPtr data b is < 2 ^ 32
  | [], _, h => h
  | i :: is, b, _ => by
    unfold walkPtr
    split
    · omega
    · exact walkPtr_lt data is _ (UInt32.toNat_lt _)

theorem fileBlk_lt (data : Nat → Buf) (ino : Inode) (n : Nat) : fileBlk fs data ino n < 2 ^ 32 := by
  unfold fileBlk
  split
  · exact walkPtr_lt data _ _ (ino.ptr_lt _)
  · omega

/-- Everything the inode refers to is one of the blocks `ok`. -/
def Within (fs : Fs) (ok : Nat → Prop) (data : Nat → Buf) (ino : Inode) : Prop :=
  ∀ σ, SlotOk fs σ → ref data ino σ ≠ 0 → ok (ref data ino σ)

/-- Everything the inode refers to is a data block of the volume. -/
def Mapped (G : Layout fs) (v : View) (ino : Inode) : Prop :=
  Within fs (fun b => G.IsData b ∧ b < fs.blocksCount) v.data ino

theorem Blocks.mapped {I : Nat → Option Inode} (h : Blocks G I v) {x : Nat}
    (hx : I x = some ino) : Mapped G v ino := fun _ hσ h0 =>
  ⟨h.isData ((at_iff hx).mpr ⟨hσ, rfl, h0⟩), h.lt ((at_iff hx).mpr ⟨hσ, rfl, h0⟩)⟩

theorem Mapped.congr (h : Mapped G v ino) {v' : View} {ino' : Inode} (hdata : v'.data = v.data)
    (hptr : ino'.ptr = ino.ptr) : Mapped G v' ino' := by
  unfold Mapped Within ref at h ⊢
  rw [hdata, hptr]
  exact h

theorem Within.fileBlk (h : Within fs ok data ino) (h0 : fileBlk fs data ino n ≠ 0) :
    ok (fileBlk fs data ino n) := by
  cases hσ : fileSlot fs n with
  | none => simp [Ext2.fileBlk, hσ] at h0
  | some σ =>
    simp only [Ext2.fileBlk, hσ] at h0 ⊢
    exact h σ (fileSlot_ok hσ) h0

theorem Mapped.isData_fileBlk (h : Mapped G v ino) (h0 : fileBlk fs v.data ino n ≠ 0) :
    G.IsData (fileBlk fs v.data ino n) ∧ fileBlk fs v.data ino n < fs.blocksCount :=
  Within.fileBlk h h0

theorem Layout.per_le (G : Layout fs) : fs.per ≤ 8192 := by
  have := G.blockSize_le
  unfold Fs.per
  omega
theorem Layout.perSq_lt (G : Layout fs) : fs.per * fs.per < 2 ^ 32 := by
  have := mul_le_mul G.per_le G.per_le
  omega

/-- What `block_of` finds: it computes `per * per` in 32 bits. -/
def reached (fs : Fs) (data : Nat → Buf) (ino : Inode) (n : Nat) : Nat :=
  if n < 12 + fs.per + u32 (fs.per * fs.per) then fileBlk fs data ino n else 0

theorem blockOf_reads (hm : Within fs ok data ino) (n : Nat) :
    Reads bs ok data (blockOf fs ino n) (· = reached fs data ino n) := by
  have hroot : ∀ r, r < 15 → ino.ptr r ≠ 0 → ok (ino.ptr r) := fun r hr h0 =>
    hm (r, []) (slotOk_root hr) h0
  have hwrap : u32 (fs.per * fs.per) ≤ fs.per * fs.per := Nat.mod_le _ _
  unfold blockOf reached fileBlk fileSlot
  by_cases h12 : n < 12
  · rw [if_pos (show n < 12 + fs.per + u32 (fs.per * fs.per) by omega)]
    simp only [if_pos h12]
    exact .ret rfl
  simp only [if_neg h12]
  by_cases hind : n - 12 < fs.per
  · rw [if_pos (show n < 12 + fs.per + u32 (fs.per * fs.per) by omega)]
    simp only [if_pos hind]
    unfold ref walkPtr
    by_cases h0 : ino.ptr 12 = 0
    · simp only [if_pos h0]
      exact .ret rfl
    · simp only [if_neg h0]
      exact .seq (.block (hroot 12 (by decide) h0)) (.ret rfl)
  simp only [if_neg hind]
  by_cases hdbl : n - 12 - fs.per < u32 (fs.per * fs.per)
  swap
  · rw [if_neg (fun h => hdbl h.1), if_neg (by omega)]
    exact .ret rfl
  have hdbl' : n - 12 - fs.per < fs.per * fs.per := by omega
  have hslot : SlotOk fs (13, [(n - 12 - fs.per) / fs.per]) :=
    ⟨show 13 < 15 by decide, Nat.le_succ 1, by simpa using Nat.div_lt_of_lt_mul hdbl'⟩
  rw [if_pos (show n < 12 + fs.per + u32 (fs.per * fs.per) by omega)]
  simp only [if_pos hdbl']
  unfold ref
  simp only [walkPtr]
  by_cases h0 : ino.ptr 13 = 0
  · rw [if_neg (fun h => h.2 h0), if_pos h0]
    exact .ret rfl
  rw [if_pos ⟨hdbl, h0⟩, if_neg h0]
  refine .seq (.block (hroot 13 (by decide) h0)) ?_
  simp only [Option.getD_some]
  have hmid := hm _ hslot
  unfold ref at hmid
  simp only [walkPtr, if_neg h0] at hmid
  by_cases h1 : ptrAt (data (ino.ptr 13)) ((n - 12 - fs.per) / fs.per) = 0
  · rw [if_pos h1, if_pos h1]
    exact .ret rfl
  · rw [if_neg h1, if_neg h1]
    exact .seq (.block (hmid h1)) (.ret rfl)

/-! ## The whole block map -/

section

variable (data : Nat → Buf) (ino : Inode)

theorem fileBlk_direct (hi : i < 12) :
    fileBlk fs data ino i = ino.ptr i := by
  simp [fileBlk, fileSlot, hi, ref, walkPtr]

theorem fileBlk_single (hi : 12 ≤ i) (hper : i < 12 + fs.per) :
    fileBlk fs data ino i = if ino.ptr 12 = 0 then 0 else ptrAt (data (ino.ptr 12)) (i - 12) := by
  have h1 : ¬ i < 12 := by omega
  have h2 : i - 12 < fs.per := by omega
  simp only [fileBlk, fileSlot, if_neg h1, if_pos h2]
  rfl

theorem fileBlk_double {j : Nat} (hj : j < fs.per)
    (hlo : 12 + fs.per + j * fs.per ≤ i) (hhi : i < 12 + fs.per + j * fs.per + fs.per) :
    fileBlk fs data ino i = if ino.ptr 13 = 0 then 0
      else if ptrAt (data (ino.ptr 13)) j = 0 then 0
      else ptrAt (data (ptrAt (data (ino.ptr 13)) j)) (i - (12 + fs.per + j * fs.per)) := by
  have hsq : (j + 1) * fs.per ≤ fs.per * fs.per := Nat.mul_le_mul_right _ hj
  rw [add_mul, one_mul] at hsq
  have h1 : ¬ i < 12 := by omega
  have h2 : ¬ i - 12 < fs.per := by omega
  have h3 : i - 12 - fs.per < fs.per * fs.per := by omega
  have hsplit : i - 12 - fs.per = fs.per * j + (i - (12 + fs.per + j * fs.per)) := by
    rw [mul_comm fs.per j]
    omega
  have hdiv : (i - 12 - fs.per) / fs.per = j := by
    rw [hsplit, Nat.mul_add_div (by omega), Nat.div_eq_of_lt (by omega), add_zero]
  have hmod : (i - 12 - fs.per) % fs.per = i - (12 + fs.per + j * fs.per) := by
    rw [hsplit, Nat.mul_add_mod, Nat.mod_eq_of_lt (by omega)]
  simp only [fileBlk, fileSlot, if_neg h1, if_neg h2, if_pos h3, hdiv, hmod]
  rfl

theorem fileBlk_beyond (hi : 12 + fs.per + fs.per * fs.per ≤ i) : fileBlk fs data ino i = 0 := by
  have h1 : ¬ i < 12 := by omega
  have h2 : ¬ i - 12 < fs.per := by omega
  have h3 : ¬ i - 12 - fs.per < fs.per * fs.per := by omega
  simp only [fileBlk, fileSlot, if_neg h1, if_neg h2, if_neg h3]

/-- Nothing is out of the reach of `block_of` where `per * per` does not wrap. -/
theorem reached_eq (h : fs.per * fs.per < 2 ^ 32) (n : Nat) :
    reached fs data ino n = fileBlk fs data ino n := by
  unfold reached
  rw [u32_of_lt h]
  split
  · rfl
  · rw [fileBlk_beyond data ino (by omega)]

end

theorem blockOf_exact (hm : Mapped G v ino) (n : Nat) :
    G.Exact (blockOf fs ino n) v (fileBlk fs v.data ino n) v := by
  rw [← reached_eq v.data ino G.perSq_lt]
  exact (blockOf_reads hm n).exact fun _ h => h.1

/-- The double-indirect loop, once everything below its `j`-th round is mapped. -/
theorem mapDouble_reads (hm : Within fs ok data ino) (n : Nat) (h13 : ino.ptr 13 ≠ 0) :
    ∀ (fuel j : Nat) (l2 : Buf) (phys : Nat → Nat), fuel + j = fs.per →
      (∀ i, i < n → phys i =
        if i < 12 + fs.per + j * fs.per then fileBlk fs data ino i else 0) →
      Reads bs ok data (mapDouble fs n (data (ino.ptr 13)) fuel j l2 phys) fun phys' =>
        ∀ i, i < n → phys' i = fileBlk fs data ino i
  | 0, j, l2, phys, hj, hphys => by
    have hj : j = fs.per := by omega
    subst hj
    refine .ret fun i hi => ?_
    rw [hphys i hi]
    split
    · rfl
    · rename_i hge
      rw [fileBlk_beyond data ino (by omega)]
  | fuel + 1, j, l2, phys, hj, hphys => by
    have hjlt : j < fs.per := by omega
    have hnext : 12 + fs.per + (j + 1) * fs.per = 12 + fs.per + j * fs.per + fs.per := by
      rw [add_mul, one_mul]
      omega
    have hdouble := fun i hlo hhi => fileBlk_double data ino (i := i) hjlt hlo hhi
    unfold mapDouble
    by_cases hdone : n ≤ 12 + fs.per + j * fs.per
    · simp only [if_pos hdone]
      refine .ret fun i hi => ?_
      rw [hphys i hi, if_pos (by omega)]
    simp only [if_neg hdone]
    by_cases hzero : ptrAt (data (ino.ptr 13)) j = 0
    · -- a hole: the blocks under it stay unmapped
      simp only [if_pos hzero]
      refine mapDouble_reads hm n h13 fuel (j + 1) l2 phys (by omega) fun i hi => ?_
      rw [hphys i hi, hnext]
      by_cases h1 : i < 12 + fs.per + j * fs.per
      · rw [if_pos h1, if_pos (by omega)]
      · rw [if_neg h1]
        by_cases h2 : i < 12 + fs.per + j * fs.per + fs.per
        · rw [if_pos h2, hdouble i (by omega) h2, if_neg h13, if_pos hzero]
        · rw [if_neg h2]
    · simp only [if_neg hzero]
      have hslot : SlotOk fs (13, [j]) := ⟨show 13 < 15 by decide, Nat.le_succ 1, by simpa⟩
      have href : ref data ino (13, [j]) = ptrAt (data (ino.ptr 13)) j := by
        simp only [ref, walkPtr, if_neg h13]
      have hdata := hm _ hslot (by rw [href]; exact hzero)
      rw [href] at hdata
      refine .seq (.block hdata) ?_
      simp only [Option.getD_some]
      refine mapDouble_reads hm n h13 fuel (j + 1) _ _ (by omega) fun i hi => ?_
      unfold storePtrs
      rw [hnext]
      by_cases h1 : i < 12 + fs.per + j * fs.per
      · rw [if_neg (by omega), hphys i hi, if_pos h1, if_pos (by omega)]
      · by_cases h2 : i < 12 + fs.per + j * fs.per + fs.per
        · rw [if_pos (by omega), if_pos h2, hdouble i (by omega) h2, if_neg h13, if_neg hzero]
        · rw [if_neg (by omega), if_neg h2, hphys i hi, if_neg h1]

theorem mapSingle_reads (hm : Within fs ok data ino) (n : Nat) :
    Reads bs ok data (mapSingle fs ino n) fun r => ∀ i, i < n → r.2 i =
      if i < 12 + fs.per then fileBlk fs data ino i else 0 := by
  unfold mapSingle
  by_cases hind : 12 < n ∧ ino.ptr 12 ≠ 0
  · have hdata := hm (12, []) (slotOk_root (by decide)) hind.2
    simp only [if_pos hind]
    refine .seq (.block hdata) (.ret ?_)
    intro i hi
    simp only [Option.getD_some, storePtrs]
    by_cases h12 : i < 12
    · rw [if_neg (by omega), if_pos ⟨h12, hi⟩, if_pos (by omega), fileBlk_direct data ino h12]
    · by_cases hper : i < 12 + fs.per
      · rw [if_pos (by omega), if_pos hper, fileBlk_single data ino (by omega) hper, if_neg hind.2]
      · rw [if_neg (by omega), if_neg (by omega), if_neg hper]
  · simp only [if_neg hind]
    refine .ret fun i hi => ?_
    dsimp only
    by_cases h12 : i < 12
    · rw [if_pos ⟨h12, hi⟩, if_pos (by omega), fileBlk_direct data ino h12]
    rw [if_neg (by omega)]
    split
    · rename_i hper
      have h0 : ino.ptr 12 = 0 := by
        by_contra h
        exact hind ⟨by omega, h⟩
      rw [fileBlk_single data ino (by omega) hper, if_pos h0]
    · rfl

/-- **`map_blocks`** finds the disk block of every logical block below `n`. -/
theorem mapBlocks_reads (hm : Within fs ok data ino) (n : Nat) :
    Reads bs ok data (mapBlocks fs ino n) fun phys =>
      ∀ i, i < n → phys i = fileBlk fs data ino i := by
  refine .bind (mapSingle_reads hm n) ?_
  rintro ⟨l1, phys⟩ hphys
  dsimp only at hphys ⊢
  by_cases hdbl : 12 + fs.per < n ∧ ino.ptr 13 ≠ 0
  · rw [if_pos hdbl]
    have hdata := hm (13, []) (slotOk_root (by decide)) hdbl.2
    refine .seq (.block hdata) ?_
    refine mapDouble_reads hm n hdbl.2 fs.per 0 _ _ (by omega) fun i hi => ?_
    rw [hphys i hi]
    simp
  rw [if_neg hdbl]
  refine .ret fun i hi => ?_
  rw [hphys i hi]
  split
  · rfl
  rename_i hge
  have h0 : ino.ptr 13 = 0 := by
    by_contra h
    exact hdbl ⟨by omega, h⟩
  by_cases hend : i < 12 + fs.per + fs.per * fs.per
  · have hpos : 0 < fs.per := pos_of_ne_zero (by rintro h; simp [h] at hend; omega)
    have hdiv := Nat.div_add_mod (i - 12 - fs.per) fs.per
    have hmod := Nat.mod_lt (i - 12 - fs.per) hpos
    rw [mul_comm] at hdiv
    rw [fileBlk_double data ino (j := (i - 12 - fs.per) / fs.per)
      (Nat.div_lt_of_lt_mul (by omega)) (by omega) (by omega), if_pos h0]
  · rw [fileBlk_beyond data ino (by omega)]

/-! ## File contents -/

/-- The bytes of logical block `n`; a hole reads as zeros. -/
def fileBlock (fs : Fs) (data : Nat → Buf) (ino : Inode) (n : Nat) : Buf :=
  if fileBlk fs data ino n = 0 then Buf.zero else data (fileBlk fs data ino n)

theorem fileBlock_congr {data data' : Nat → Buf} {ino ino' : Inode} {i : Nat}
    (hblk : fileBlk fs data' ino' i = fileBlk fs data ino i) (hdata : fileBlk fs data ino i ≠ 0 →
      data' (fileBlk fs data ino i) = data (fileBlk fs data ino i)) :
    fileBlock fs data' ino' i = fileBlock fs data ino i := by
  unfold fileBlock
  rw [hblk]
  exact ite_congr rfl (fun _ => rfl) hdata

/-- The first `size` bytes of a file. -/
def fileBytes (fs : Fs) (data : Nat → Buf) (ino : Inode) (size : Nat) : List UInt8 :=
  (List.range size).map fun i => fileBlock fs data ino (i / fs.blockSize) (i % fs.blockSize)

theorem extendRun_spec {phys : Nat → Nat} {full : Nat} (h0 : phys i ≠ 0)
    (hlt : ∀ k, k < full → phys k < 2 ^ 32)
    (hwrap : ∀ k, k + 1 < full → phys k = 2 ^ 32 - 1 → phys (k + 1) ≠ 0) :
    ∀ fuel run, 1 ≤ run → i + run ≤ full → (∀ j, j < run → phys (i + j) = phys i + j) →
      1 ≤ extendRun phys full i fuel run ∧ i + extendRun phys full i fuel run ≤ full ∧
        ∀ j, j < extendRun phys full i fuel run → phys (i + j) = phys i + j
  | 0, run, hpos, hle, hrun => ⟨hpos, hle, hrun⟩
  | fuel + 1, run, hpos, hle, hrun => by
    unfold extendRun
    by_cases hext : i + run < full ∧ phys (i + run) = u32 (phys i + run)
    swap
    · rw [if_neg hext]
      exact ⟨hpos, hle, hrun⟩
    rw [if_pos hext]
    have hlast := hrun (run - 1) (by omega)
    have hbound := hlt (i + (run - 1)) (by omega)
    -- a run that ends at the last block number is not extended by a hole
    have hend : phys i + run < 2 ^ 32 := by
      by_contra hge
      have hnext := hwrap (i + (run - 1)) (by omega) (by omega)
      rw [show i + (run - 1) + 1 = i + run by omega, hext.2,
        show phys i + run = 2 ^ 32 by omega] at hnext
      exact hnext rfl
    refine extendRun_spec h0 hlt hwrap fuel (run + 1) (by omega) (by omega) fun j hj => ?_
    by_cases hjr : j = run
    · rw [hjr, hext.2, u32_of_lt hend]
    · exact hrun j (by omega)

theorem readWhole_reads (hm : Within fs ok data ino) {phys : Nat → Nat} {full : Nat}
    (hphys : ∀ i, i < full → phys i = fileBlk fs data ino i)
    (hwrap : ∀ i, i + 1 < full → fileBlk fs data ino i = 2 ^ 32 - 1 → fileBlk fs data ino (i + 1) ≠ 0)
    (hspan : full * (bs / 512) < 2 ^ 32) :
    ∀ fuel i, full ≤ i + fuel → i ≤ full →
      Reads bs ok data (readWhole phys full fuel i)
        (· = (List.range' i (full - i)).map (fileBlock fs data ino))
  | 0, i, hfuel, hi => by
    rw [show full - i = 0 by omega]
    exact .ret rfl
  | fuel + 1, i, hfuel, hi => by
    unfold readWhole
    by_cases hlt : i < full
    swap
    · simp only [if_neg hlt]
      rw [show full - i = 0 by omega]
      exact .ret rfl
    simp only [if_pos hlt]
    by_cases h0 : phys i = 0
    · simp only [if_pos h0]
      refine .seq (readWhole_reads hm hphys hwrap hspan fuel (i + 1) (by omega) (by omega)) ?_
      refine .ret ?_
      rw [show full - i = (full - (i + 1)) + 1 by omega, range'_succ, map_cons]
      rw [hphys i hlt] at h0
      simp [fileBlock, h0]
    simp only [if_neg h0]
    obtain ⟨hpos, hend, hrun⟩ := extendRun_spec h0 (fun k hk => hphys k hk ▸ fileBlk_lt data ino k)
      (fun k hk => by rw [hphys k (by omega), hphys (k + 1) hk]; exact hwrap k hk) full 1
      (by omega) (by omega) (fun j hj => by rw [show j = 0 by omega]; rfl)
    generalize extendRun phys full i full 1 = run at hpos hend hrun ⊢
    -- every block of the run is a nonzero block of the file
    have hmember : ∀ j, j < run → ok (phys i + j) ∧ phys i + j < 2 ^ 32 ∧
        fileBlk fs data ino (i + j) = phys i + j := fun j hj => by
      have hj' := hrun j hj
      rw [hphys _ (by omega)] at hj'
      have hok := hm.fileBlk (n := i + j) (by omega)
      have hlt := @fileBlk_lt fs data ino (i + j)
      rw [hj'] at hok hlt
      exact ⟨hok, hlt, hj'⟩
    have hrange : phys i + run ≤ 2 ^ 32 := by
      have := (hmember (run - 1) (by omega)).2.1
      omega
    have hspan' : run * (bs / 512) < 2 ^ 32 :=
      Nat.lt_of_le_of_lt (Nat.mul_le_mul_right _ (by omega)) hspan
    refine .seq (.run hrange hspan' fun j hj => (hmember j hj).1) ?_
    refine .seq (readWhole_reads hm hphys hwrap hspan fuel (i + run) (by omega) hend) ?_
    refine .ret ?_
    rw [show full - i = run + (full - (i + run)) by omega, ← range'_append_1, map_append]
    congr 1
    rw [range'_eq_map_range, map_map]
    apply map_congr_left
    intro j hj
    have hj' := mem_range.mp hj
    obtain ⟨_, _, hblk⟩ := hmember j hj'
    simp only [Function.comp_apply, fileBlock, hblk]
    rw [if_neg (by omega), getD_eq_getElem?_getD, getElem?_map, getElem?_range hj']
    rfl

theorem fileBytes_split (hpos : 0 < fs.blockSize) (data : Nat → Buf) (ino : Inode) (size : Nat) :
    fileBytes fs data ino size =
      ((List.range (size / fs.blockSize)).flatMap fun k =>
        (fileBlock fs data ino k).bytes fs.blockSize) ++
      (fileBlock fs data ino (size / fs.blockSize)).bytes (size % fs.blockSize) := by
  have hsize : size = size / fs.blockSize * fs.blockSize + size % fs.blockSize := by
    rw [mul_comm]
    exact (Nat.div_add_mod size fs.blockSize).symm
  unfold fileBytes Buf.bytes
  rw [range_flatMap hpos fun k => fileBlock fs data ino k]
  conv_lhs => rw [hsize, range_add, map_append, map_map]
  congr 1
  apply map_congr_left
  intro i hi
  have hlt : i < fs.blockSize := (mem_range.mp hi).trans (Nat.mod_lt _ hpos)
  rw [Function.comp_apply, mul_comm, Nat.mul_add_div hpos, Nat.mul_add_mod,
    Nat.div_eq_of_lt hlt, Nat.mod_eq_of_lt hlt, add_zero]

variable {size : Nat}

/-- **`read_file`** delivers the bytes of the file. -/
theorem readFile_reads (hm : Within fs ok data ino) (hpos : 0 < fs.blockSize)
    (hn : (size + fs.blockSize - 1) / fs.blockSize < 2 ^ 32) (hsize : size + fs.blockSize ≤ 2 ^ 64)
    (hwrap : ∀ i, i + 1 < size / fs.blockSize → fileBlk fs data ino i = 2 ^ 32 - 1 →
      fileBlk fs data ino (i + 1) ≠ 0)
    (hspan : size / fs.blockSize * (bs / 512) < 2 ^ 32) :
    Reads bs ok data (readFile fs ino size) (· = fileBytes fs data ino size) := by
  have hdm := Nat.div_add_mod size fs.blockSize
  -- the block count is the size rounded up
  have hround : (size + fs.blockSize - 1) / fs.blockSize =
      size / fs.blockSize + (if 0 < size % fs.blockSize then 1 else 0) := by
    have hmod := Nat.mod_lt size hpos
    rw [mul_comm] at hdm
    split
    · rw [Nat.div_eq_iff hpos, Nat.add_mul]
      omega
    · rw [Nat.div_eq_iff hpos, Nat.add_zero]
      omega
  rw [hround] at hn
  unfold readFile
  rw [Nat.mod_eq_of_lt (show size + fs.blockSize - 1 < 2 ^ 64 by omega), hround, u32_of_lt hn,
    u32_of_lt (show size / fs.blockSize < 2 ^ 32 by omega)]
  refine .bind (mapBlocks_reads hm _) ?_
  intro phys hphys
  refine .seq (readWhole_reads hm (fun i hi => hphys i (Nat.lt_add_right _ hi)) hwrap hspan
    (size / fs.blockSize) 0 (Nat.le_add_left _ _) (Nat.zero_le _)) ?_
  rw [fileBytes_split hpos, Nat.sub_zero, ← List.range_eq_range', List.flatMap_map]
  split
  · rename_i hrem
    have htail := hphys (size / fs.blockSize) (by rw [if_pos hrem]; exact Nat.lt_succ_self _)
    split
    · rename_i h0
      refine .ret ?_
      rw [htail] at h0
      simp [fileBlock, h0]
    · rename_i h0
      rw [htail] at h0 ⊢
      refine .seq (.block (hm.fileBlk h0)) (.ret ?_)
      simp [fileBlock, h0]
  · rename_i hrem
    refine .ret ?_
    rw [show size % fs.blockSize = 0 by omega]
    simp [Buf.bytes]

theorem sectors_lt {b : Nat} (hsize : size < 2 ^ 41) : size / b * (b / 512) < 2 ^ 32 := by
  have h1 : size / b * (b / 512) * 512 ≤ size := by
    rw [mul_assoc]
    refine (Nat.mul_le_mul_left _ (Nat.div_mul_le_self b 512)).trans ?_
    exact Nat.div_mul_le_self ..
  omega

theorem readFile_exact (hm : Mapped G v ino) (hsize : size < 2 ^ 41) :
    G.Exact (readFile fs ino size) v (fileBytes fs v.data ino size) v := by
  have hge := G.blockSize.ge
  have hle := G.blockSize_le
  have hn : (size + fs.blockSize - 1) / fs.blockSize < 2 ^ 32 := by
    refine Nat.div_lt_of_lt_mul ?_
    have : 1024 * 2 ^ 32 ≤ fs.blockSize * 2 ^ 32 := Nat.mul_le_mul_right _ hge
    omega
  have hwrap : ∀ i, i + 1 < size / fs.blockSize → fileBlk fs v.data ino i = 2 ^ 32 - 1 →
      fileBlk fs v.data ino (i + 1) ≠ 0 := by
    intro i _ heq
    have := (hm.isData_fileBlk (n := i) (by omega)).2
    have := G.blocksCount_lt
    omega
  exact (readFile_reads hm (by omega) hn (by omega) hwrap (sectors_lt hsize)).exact fun _ h => h.1

end JuampiOs.Ext2
