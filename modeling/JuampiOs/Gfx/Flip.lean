import JuampiOs.Gfx.Model

/-!
# The damage-tracked flip

`gfx_flip` compares the back buffer with the shadow tile by tile and copies the tiles that
differ. If the shadow is what is on the screen, it leaves what `gfx_flip_full` leaves: the
framebuffer and the shadow equal the back buffer, and nothing outside the visible pixels is
written (`flip_eq_full`). The loop invariant is that after some tiles both arrays are the back
buffer inside these tiles and what they were outside (`Progress`); a tile that does not differ
is already there.
-/

namespace JuampiOs.Gfx

open Lib List

/-! ## Pixels and bytes -/

theorem pixelPair_inj {a b : Pixels} {i : Nat} (h : pixelPair a i = pixelPair b i) :
    a i = b i ∧ a (i + 1) = b (i + 1) := by
  have h0 := (a i).toNat_lt
  have h1 := (a (i + 1)).toNat_lt
  have h2 := (b i).toNat_lt
  have h3 := (b (i + 1)).toNat_lt
  have hnat := congrArg UInt64.toNat h
  simp only [pixelPair, UInt64.toNat_ofNat'] at hnat
  constructor <;> apply UInt32.toNat_inj.mp <;> omega

theorem rowDiffers_iff (a b : Pixels) (i n : Nat) :
    rowDiffers a b i n = true ↔ ∃ k, i ≤ k ∧ k < n ∧ a k ≠ b k := by
  fun_induction rowDiffers a b i n with
  | case1 i hle hpair =>
    refine iff_of_true rfl ?_
    by_contra hnone
    push Not at hnone
    apply hpair
    unfold pixelPair
    rw [hnone i (le_refl i) (by omega), hnone (i + 1) (by omega) (by omega)]
  | case2 i hle hpair ih =>
    rw [ih]
    obtain ⟨hfst, hsnd⟩ := pixelPair_inj (not_not.mp hpair)
    constructor
    · rintro ⟨k, hk, hkn, hne⟩
      exact ⟨k, by omega, hkn, hne⟩
    · rintro ⟨k, hk, hkn, hne⟩
      refine ⟨k, ?_, hkn, hne⟩
      by_contra hlt
      rcases (by omega : k = i ∨ k = i + 1) with rfl | rfl
      · exact hne hfst
      · exact hne hsnd
  | case3 i hle =>
    -- the last pixel of an odd number
    rw [Bool.and_eq_true, decide_eq_true_eq, bne_iff_ne]
    constructor
    · rintro ⟨hlt, hne⟩
      exact ⟨i, le_refl i, hlt, hne⟩
    · rintro ⟨k, hk, hkn, hne⟩
      obtain rfl : k = i := by omega
      exact ⟨hkn, hne⟩

/-- The visible part of the framebuffer shows the pixels. -/
def Shows (m : Mode) (fb : Buf) (px : Pixels) : Prop :=
  ∀ x y j, x < m.width → y < m.height → j < 4 →
    fb (y * m.pitch + x * 4 + j) = Buf.le32 (px (y * m.width + x)) j

/-- A byte of a visible pixel. -/
def Visible (m : Mode) (a : Nat) : Prop :=
  ∃ x y j, x < m.width ∧ y < m.height ∧ j < 4 ∧ a = y * m.pitch + x * 4 + j

variable {m : Mode}

variable {x y : Nat} {t : Tile}

theorem byte_coords {j : Nat} (hx : x < m.width) (hj : j < 4) :
    (y * m.pitch + x * 4 + j) / m.pitch = y ∧ (y * m.pitch + x * 4 + j) % m.pitch = x * 4 + j := by
  have hlt : x * 4 + j < m.pitch := by
    have := m.pitch_ge
    omega
  have heq : y * m.pitch + x * 4 + j = x * 4 + j + m.pitch * y := by
    rw [mul_comm]
    omega
  rw [heq, Nat.add_mul_div_left _ _ (by omega), Nat.add_mul_mod_self_left, Nat.div_eq_of_lt hlt,
    Nat.mod_eq_of_lt hlt, zero_add]
  exact ⟨rfl, rfl⟩

theorem pixel_coords (hx : x < m.width) :
    (y * m.width + x) / m.width = y ∧ (y * m.width + x) % m.width = x := by
  have heq : y * m.width + x = x + m.width * y := by
    rw [mul_comm]
    omega
  rw [heq, Nat.add_mul_div_left _ _ (by omega), Nat.add_mul_mod_self_left, Nat.div_eq_of_lt hx,
    Nat.mod_eq_of_lt hx, zero_add]
  exact ⟨rfl, rfl⟩

theorem visible_iff {a : Nat} :
    Visible m a ↔ a / m.pitch < m.height ∧ a % m.pitch < 4 * m.width := by
  constructor
  · rintro ⟨x, y, j, hx, hy, hj, rfl⟩
    obtain ⟨hrow, hcol⟩ := byte_coords (y := y) hx hj
    rw [hrow, hcol]
    omega
  · rintro ⟨hrow, hcol⟩
    refine ⟨a % m.pitch / 4, a / m.pitch, a % m.pitch % 4, by omega, hrow, by omega, ?_⟩
    have hdiv := Nat.div_add_mod a m.pitch
    rw [mul_comm] at hdiv
    omega

theorem Shows.byte {fb : Buf} {px : Pixels} (h : Shows m fb px) {a : Nat}
    (hrow : a / m.pitch < m.height) (hcol : a % m.pitch < 4 * m.width) :
    fb a = pixelBytes (offset px (a / m.pitch * m.width)) (a % m.pitch) := by
  have hbyte := h (a % m.pitch / 4) (a / m.pitch) (a % m.pitch % 4) (by omega) hrow (by omega)
  have haddr : a / m.pitch * m.pitch + a % m.pitch / 4 * 4 + a % m.pitch % 4 = a := by
    have hdiv := Nat.div_add_mod a m.pitch
    rw [mul_comm] at hdiv
    omega
  rw [haddr] at hbyte
  exact hbyte

/-! ## The progress of the loops -/

/-- The pixel is in the tile. -/
def Tile.has (t : Tile) (x y : Nat) : Bool :=
  decide (t.x0 ≤ x ∧ x < t.x1 ∧ t.y0 ≤ y ∧ y < t.y1)

theorem Tile.has_iff :
    t.has x y = true ↔ t.x0 ≤ x ∧ x < t.x1 ∧ t.y0 ≤ y ∧ y < t.y1 := decide_eq_true_iff

/-- One of the tiles has the pixel. -/
def covered (ts : List Tile) (x y : Nat) : Bool := ts.any (·.has x y)

/-- The tile lies on the screen. -/
structure Tile.On (m : Mode) (t : Tile) : Prop where
  x_mono : t.x0 ≤ t.x1
  x_le : t.x1 ≤ m.width
  y_le : t.y1 ≤ m.height

variable {back sh : Pixels} {fb : Buf}

/-- The shadow with the back buffer inside `done`. -/
def mixPixels (m : Mode) (done : Nat → Nat → Bool) (back sh : Pixels) : Pixels :=
  fun i => if done (i % m.width) (i / m.width) then back i else sh i

/-- The framebuffer with the back buffer inside `done`. -/
def mixBytes (m : Mode) (done : Nat → Nat → Bool) (back : Pixels) (fb : Buf) : Buf :=
  fun a =>
    if a % m.pitch < 4 * m.width ∧ done (a % m.pitch / 4) (a / m.pitch) = true
    then pixelBytes (offset back (a / m.pitch * m.width)) (a % m.pitch) else fb a

theorem mem_rowsFrom {y0 y1 : Nat} : y ∈ rowsFrom y0 y1 ↔ y0 ≤ y ∧ y < y1 := by
  simp only [rowsFrom, mem_map, mem_range]
  constructor
  · rintro ⟨k, hk, rfl⟩
    omega
  · rintro ⟨h0, h1⟩
    exact ⟨y - y0, by omega, by omega⟩

theorem flipTile_shadow (ht : t.On m) (s : Flip) :
    (flipTile m back t s).shadow = mixPixels m t.has back s.shadow := by
  funext i
  have hx := ht.x_le
  have hmono := ht.x_mono
  show copyRows _ _ _ _ _ _ i = _
  rw [copyRows_apply (by omega)]
  unfold mixPixels
  by_cases hin : t.has (i % m.width) (i / m.width) = true
  · obtain ⟨h1, h2, h3, h4⟩ := Tile.has_iff.mp hin
    rw [if_pos ⟨mem_rowsFrom.mpr ⟨h3, h4⟩, h1, by omega⟩, if_pos hin]
    unfold offset
    congr 1
    have hdiv := Nat.div_add_mod i m.width
    rw [mul_comm] at hdiv
    omega
  · rw [if_neg hin, if_neg]
    rintro ⟨hrow, hlo, hhi⟩
    obtain ⟨h3, h4⟩ := mem_rowsFrom.mp hrow
    exact hin (Tile.has_iff.mpr ⟨hlo, by omega, h3, h4⟩)

theorem flipTile_fb (ht : t.On m) (s : Flip) :
    (flipTile m back t s).fb = mixBytes m t.has back s.fb := by
  funext a
  have hx := ht.x_le
  have hmono := ht.x_mono
  have hpitch := m.pitch_ge
  show copyRows _ _ _ _ _ _ a = _
  rw [copyRows_apply (by omega)]
  unfold mixBytes
  by_cases hin : t.has (a % m.pitch / 4) (a / m.pitch) = true
  · obtain ⟨h1, h2, h3, h4⟩ := Tile.has_iff.mp hin
    rw [if_pos ⟨mem_rowsFrom.mpr ⟨h3, h4⟩, by omega, by omega⟩, if_pos ⟨by omega, hin⟩]
    -- the column starts at a whole pixel
    unfold pixelBytes offset
    have hpix : (a % m.pitch - t.x0 * 4) / 4 = a % m.pitch / 4 - t.x0 := by omega
    have hbyte : (a % m.pitch - t.x0 * 4) % 4 = a % m.pitch % 4 := by omega
    rw [hpix, hbyte, show a / m.pitch * m.width + t.x0 + (a % m.pitch / 4 - t.x0) =
      a / m.pitch * m.width + a % m.pitch / 4 by omega]
  · have hout : ¬ (a / m.pitch ∈ rowsFrom t.y0 t.y1 ∧ t.x0 * 4 ≤ a % m.pitch ∧
        a % m.pitch < t.x0 * 4 + (t.x1 - t.x0) * 4) := by
      rintro ⟨hrow, hlo, hhi⟩
      obtain ⟨h3, h4⟩ := mem_rowsFrom.mp hrow
      exact hin (Tile.has_iff.mpr ⟨by omega, by omega, h3, h4⟩)
    rw [if_neg hout, if_neg fun hc => hin hc.2]

theorem tileDirty_false {px : Pixels} (h : tileDirty m back t px = false) (hin : t.has x y = true) :
    px (y * m.width + x) = back (y * m.width + x) := by
  obtain ⟨h1, h2, h3, h4⟩ := Tile.has_iff.mp hin
  by_contra hne
  have hdirty : tileDirty m back t px = true := by
    refine any_eq_true.mpr ⟨y, mem_rowsFrom.mpr ⟨h3, h4⟩, ?_⟩
    rw [rowDiffers_iff]
    refine ⟨x - t.x0, Nat.zero_le _, by omega, ?_⟩
    unfold offset
    rw [show y * m.width + t.x0 + (x - t.x0) = y * m.width + x by omega]
    exact fun heq => hne heq.symm
  rw [h] at hdirty
  cases hdirty

/-- The arrays after some tiles: the back buffer inside them, what they were outside. -/
structure Progress (m : Mode) (back sh : Pixels) (fb : Buf) (ts : List Tile) (s : Flip) : Prop where
  shadow : s.shadow = mixPixels m (covered ts) back sh
  fb : s.fb = mixBytes m (covered ts) back fb
  flushed : ∀ x y, x < m.width → covered ts x y = true →
    back (y * m.width + x) ≠ sh (y * m.width + x) → covered s.flushed x y = true

variable {ts : List Tile} {t : Tile} {s : Flip}

theorem covered_cons : covered (t :: ts) x y = (t.has x y || covered ts x y) := rfl

theorem mixPixels_mix (d d' : Nat → Nat → Bool) :
    mixPixels m d back (mixPixels m d' back sh) = mixPixels m (fun x y => d x y || d' x y) back sh := by
  funext i
  simp only [mixPixels, Bool.or_eq_true]
  by_cases hd : d (i % m.width) (i / m.width) = true <;> simp [hd]

theorem mixBytes_mix (d d' : Nat → Nat → Bool) :
    mixBytes m d back (mixBytes m d' back fb) = mixBytes m (fun x y => d x y || d' x y) back fb := by
  funext a
  simp only [mixBytes, Bool.or_eq_true]
  by_cases hd : d (a % m.pitch / 4) (a / m.pitch) = true <;>
    by_cases hcol : a % m.pitch < 4 * m.width <;> simp [hd, hcol]

theorem mixPixels_at (d : Nat → Nat → Bool) (hx : x < m.width) :
    mixPixels m d back sh (y * m.width + x) =
      if d x y then back (y * m.width + x) else sh (y * m.width + x) := by
  unfold mixPixels
  rw [(pixel_coords hx).1, (pixel_coords hx).2]

theorem Progress.step (h : Progress m back sh fb ts s) (hshows : Shows m fb sh) (ht : t.On m) :
    Progress m back sh fb (t :: ts) (flipStep m back s t) := by
  unfold flipStep
  split
  · rename_i hdirty
    refine ⟨?_, ?_, ?_⟩
    · rw [flipTile_shadow ht, h.shadow, mixPixels_mix]
      rfl
    · rw [flipTile_fb ht, h.fb, mixBytes_mix]
      rfl
    · intro x y hx hcov hne
      show (t.has x y || covered s.flushed x y) = true
      rw [covered_cons, Bool.or_eq_true] at hcov
      rw [Bool.or_eq_true]
      exact hcov.imp id fun hc => h.flushed x y hx hc hne
  · rename_i hclean
    have hclean : tileDirty m back t s.shadow = false := by simpa using hclean
    -- inside the tile the shadow is the back buffer already
    have hsame : ∀ x y, t.has x y = true →
        covered ts x y = true ∨ sh (y * m.width + x) = back (y * m.width + x) := by
      intro x y hin
      have hx : x < m.width := lt_of_lt_of_le (Tile.has_iff.mp hin).2.1 ht.x_le
      have heq := tileDirty_false hclean hin
      rw [h.shadow, mixPixels_at _ hx] at heq
      by_cases hc : covered ts x y = true
      · exact .inl hc
      · rw [if_neg hc] at heq
        exact .inr heq
    refine ⟨?_, ?_, ?_⟩
    · rw [h.shadow]
      funext i
      unfold mixPixels
      rw [covered_cons]
      by_cases hin : t.has (i % m.width) (i / m.width) = true
      · have hidx : i / m.width * m.width + i % m.width = i := by
          rw [mul_comm]
          exact Nat.div_add_mod i m.width
        rcases hsame _ _ hin with hc | heq
        · rw [hc, hin]
          rfl
        · rw [hidx] at heq
          rw [hin, heq]
          simp
      · rw [Bool.not_eq_true] at hin
        rw [hin, Bool.false_or]
    · rw [h.fb]
      funext a
      unfold mixBytes
      rw [covered_cons]
      by_cases hcol : a % m.pitch < 4 * m.width
      · by_cases hin : t.has (a % m.pitch / 4) (a / m.pitch) = true
        · have hrow : a / m.pitch < m.height :=
            lt_of_lt_of_le (Tile.has_iff.mp hin).2.2.2 ht.y_le
          rcases hsame _ _ hin with hc | heq
          · rw [hc, hin]
            rfl
          · have hbyte := hshows.byte hrow hcol
            unfold pixelBytes offset at hbyte ⊢
            rw [heq] at hbyte
            simp [hcol, hin, hbyte]
        · rw [Bool.not_eq_true] at hin
          rw [hin, Bool.false_or]
      · rw [if_neg fun hc => hcol hc.1, if_neg fun hc => hcol hc.1]
    · intro x y hx hcov hne
      rw [covered_cons, Bool.or_eq_true] at hcov
      rcases hcov with hin | hc
      · rcases hsame x y hin with hc | heq
        · exact h.flushed x y hx hc hne
        · exact absurd heq.symm hne
      · exact h.flushed x y hx hc hne

theorem Progress.foldl (h : Progress m back sh fb ts s) (hshows : Shows m fb sh) {us : List Tile}
    (hus : ∀ t ∈ us, t.On m) :
    Progress m back sh fb (us.reverse ++ ts) (us.foldl (flipStep m back) s) := by
  induction us generalizing ts s with
  | nil => exact h
  | cons t us ih =>
    have hrest := ih (h.step hshows (hus t mem_cons_self)) fun u hu => hus u (mem_cons_of_mem _ hu)
    rw [reverse_cons, append_assoc]
    exact hrest

/-- The tiles of the screen. -/
def tiles (m : Mode) : List Tile :=
  (steps gfxTile m.height).flatMap fun ty => (steps gfxTile m.width).map fun tx => tileAt m tx ty

theorem flipTiles_eq (s : Flip) : flipTiles m back s = (tiles m).foldl (flipStep m back) s := by
  unfold flipTiles tiles
  rw [foldl_flatMap]
  congr 1
  funext s ty
  rw [foldl_map]

theorem tileAt_on {tx ty : Nat} (htx : tx < m.width) : (tileAt m tx ty).On m := by
  unfold tileAt
  constructor <;> dsimp only <;> split <;> omega

theorem tiles_on : ∀ t ∈ tiles m, t.On m := by
  intro t ht
  obtain ⟨ty, _, ht⟩ := mem_flatMap.mp ht
  obtain ⟨tx, htx, rfl⟩ := mem_map.mp ht
  exact tileAt_on (lt_of_mem_steps (by decide) htx)

theorem covered_tiles : covered (tiles m) x y = true ↔ x < m.width ∧ y < m.height := by
  unfold covered
  rw [any_eq_true]
  constructor
  · rintro ⟨t, ht, hin⟩
    have hon := tiles_on t ht
    obtain ⟨h1, h2, h3, h4⟩ := Tile.has_iff.mp hin
    exact ⟨lt_of_lt_of_le h2 hon.x_le, lt_of_lt_of_le h4 hon.y_le⟩
  · rintro ⟨hx, hy⟩
    refine ⟨tileAt m (x / gfxTile * gfxTile) (y / gfxTile * gfxTile), ?_, ?_⟩
    · exact mem_flatMap.mpr ⟨_, mem_steps (by decide) hy,
        mem_map.mpr ⟨_, mem_steps (by decide) hx, rfl⟩⟩
    · rw [Tile.has_iff]
      unfold tileAt gfxTile
      dsimp only
      have hx' := Nat.div_add_mod x 32
      have hy' := Nat.div_add_mod y 32
      refine ⟨by omega, ?_, by omega, ?_⟩ <;> split <;> omega

theorem flipTiles_progress (hshows : Shows m fb sh) :
    Progress m back sh fb (tiles m).reverse (flipTiles m back ⟨fb, sh, []⟩) := by
  have hstart : Progress m back sh fb [] ⟨fb, sh, []⟩ := by
    refine ⟨?_, ?_, fun _ _ _ hc => nomatch hc⟩
    · funext i
      rfl
    · funext a
      exact (if_neg fun hc => nomatch hc.2).symm
  have hend := hstart.foldl hshows tiles_on
  rw [append_nil, ← flipTiles_eq] at hend
  exact hend

/-! ## The flip and the full flip -/

/-- The pixels of the screen. -/
def onScreen (m : Mode) (x y : Nat) : Bool := decide (x < m.width ∧ y < m.height)

theorem covered_all : covered (tiles m).reverse = onScreen m := by
  funext x y
  rw [show covered (tiles m).reverse x y = covered (tiles m) x y from any_reverse,
    Bool.eq_iff_iff, covered_tiles]
  exact decide_eq_true_iff.symm

theorem copy_all : copy sh 0 (m.width * m.height) back = mixPixels m (onScreen m) back sh := by
  funext i
  have hiff : (0 ≤ i ∧ i < 0 + m.width * m.height) ↔
      onScreen m (i % m.width) (i / m.width) = true := by
    rw [onScreen, decide_eq_true_iff]
    rcases eq_zero_or_pos m.width with hw | hw
    · rw [hw]
      omega
    · rw [Nat.div_lt_iff_lt_mul hw, Nat.mul_comm m.height]
      have := Nat.mod_lt i hw
      omega
  unfold copy mixPixels
  by_cases hin : 0 ≤ i ∧ i < 0 + m.width * m.height
  · rw [if_pos hin, if_pos (hiff.mp hin), Nat.sub_zero]
  · rw [if_neg hin, if_neg fun hc => hin (hiff.mpr hc)]

theorem pixelBytes_row {w k : Nat} :
    pixelBytes (offset back (y * w)) k = pixelBytes back (y * (w * 4) + k) := by
  unfold pixelBytes offset
  have hdiv : (y * (w * 4) + k) / 4 = y * w + k / 4 := by
    rw [← mul_assoc]
    omega
  have hmod : (y * (w * 4) + k) % 4 = k % 4 := by
    rw [← mul_assoc]
    omega
  rw [hdiv, hmod]

theorem copyRows_all :
    copyRows m.pitch 0 (m.width * 4) (fun y => pixelBytes (offset back (y * m.width))) m.rows fb =
      mixBytes m (onScreen m) back fb := by
  funext a
  have hpitch := m.pitch_ge
  rw [copyRows_apply (by omega)]
  have hiff : (a / m.pitch ∈ m.rows ∧ 0 ≤ a % m.pitch ∧ a % m.pitch < 0 + m.width * 4) ↔
      a % m.pitch < 4 * m.width ∧ onScreen m (a % m.pitch / 4) (a / m.pitch) = true := by
    rw [onScreen, decide_eq_true_iff, Mode.rows, mem_range]
    omega
  unfold mixBytes
  by_cases hin : a / m.pitch ∈ m.rows ∧ 0 ≤ a % m.pitch ∧ a % m.pitch < 0 + m.width * 4
  · rw [if_pos hin, if_pos (hiff.mp hin), Nat.sub_zero]
  · rw [if_neg hin, if_neg fun hc => hin (hiff.mpr hc)]

theorem copy_packed (hpacked : m.pitch = m.width * 4) :
    copy fb 0 (m.width * m.height * 4) (pixelBytes back) = mixBytes m (onScreen m) back fb := by
  rw [← copyRows_all]
  funext a
  rw [copyRows_apply (by omega)]
  have hdiv := Nat.div_add_mod a m.pitch
  rcases eq_zero_or_pos m.width with hw | hw
  · have hnot : ¬ (a / m.pitch ∈ m.rows ∧ 0 ≤ a % m.pitch ∧ a % m.pitch < 0 + m.width * 4) := by
      omega
    rw [if_neg hnot]
    exact if_neg (by rw [hw]; omega)
  have hpos : 0 < m.pitch := by omega
  have hmod := Nat.mod_lt a hpos
  have hiff : (0 ≤ a ∧ a < 0 + m.width * m.height * 4) ↔
      a / m.pitch ∈ m.rows ∧ 0 ≤ a % m.pitch ∧ a % m.pitch < 0 + m.width * 4 := by
    have hsize : m.width * m.height * 4 = m.height * m.pitch := by
      rw [hpacked, mul_comm m.width, mul_assoc]
    rw [Mode.rows, List.mem_range, Nat.div_lt_iff_lt_mul hpos, hsize]
    omega
  unfold copy
  by_cases hin : 0 ≤ a ∧ a < 0 + m.width * m.height * 4
  · rw [if_pos hin, if_pos (hiff.mp hin), Nat.sub_zero, Nat.sub_zero,
      pixelBytes_row, ← hpacked, mul_comm, hdiv]
  · rw [if_neg hin, if_neg fun hc => hin (hiff.mpr hc)]

theorem gfxFlipFull_eq {s : Screen} (hfb : s.fb = some fb) (hback : s.back = some back)
    (hsh : s.shadow = some sh) :
    (gfxFlipFull s).fb = some (mixBytes s.mode (onScreen s.mode) back fb) ∧
      (gfxFlipFull s).shadow = some (mixPixels s.mode (onScreen s.mode) back sh) := by
  simp only [gfxFlipFull, hfb, hback, hsh, Option.map_some]
  refine ⟨?_, by rw [copy_all]⟩
  split
  · rename_i hpacked
    rw [copy_packed hpacked]
  · rw [copyRows_all]

theorem gfxFlip_eq {s : Screen} (hfb : s.fb = some fb) (hback : s.back = some back)
    (hsh : s.shadow = some sh) (hshows : Shows s.mode fb sh) :
    gfxFlip s = { s with
      fb := some (mixBytes s.mode (onScreen s.mode) back fb)
      shadow := some (mixPixels s.mode (onScreen s.mode) back sh)
      lastFlipTiles := UInt32.ofNat (flushedTiles s).length } := by
  have hend : Progress s.mode back sh fb (tiles s.mode).reverse
      (flipTiles s.mode back ⟨fb, sh, []⟩) := flipTiles_progress hshows
  rw [gfxFlip, hfb, hback, hsh]
  simp only [flushedTiles, hfb, hback, hsh]
  rw [hend.fb, hend.shadow, covered_all]

theorem shows_mixBytes : Shows m (mixBytes m (onScreen m) back fb) back := by
  intro x y j hx hy hj
  obtain ⟨hrow, hcol⟩ := byte_coords (y := y) hx hj
  have hpix : (x * 4 + j) / 4 = x := by omega
  have hbyte : (x * 4 + j) % 4 = j := by omega
  unfold mixBytes
  rw [hrow, hcol, hpix, if_pos ⟨by omega, decide_eq_true ⟨hx, hy⟩⟩]
  unfold pixelBytes offset
  rw [hpix, hbyte]

/-- **`gfx_flip` is `gfx_flip_full`**: from every screen whose shadow is what it shows. -/
theorem flip_eq_full (s : Screen) (hfb : s.fb = some fb) (hback : s.back = some back)
    (hsh : s.shadow = some sh) (hshows : Shows s.mode fb sh) :
    ∃ fb' sh', gfxFlip s = { s with
        fb := some fb', shadow := some sh',
        lastFlipTiles := UInt32.ofNat (flushedTiles s).length } ∧
      (gfxFlipFull s).fb = some fb' ∧ (gfxFlipFull s).shadow = some sh' ∧
      Shows s.mode fb' back ∧ (∀ i < s.mode.width * s.mode.height, sh' i = back i) ∧
      (∀ a, ¬ Visible s.mode a → fb' a = fb a) ∧
      ∀ x y, x < s.mode.width → y < s.mode.height →
        back (y * s.mode.width + x) ≠ sh (y * s.mode.width + x) →
        covered (flushedTiles s) x y = true := by
  obtain ⟨hfull, hfullSh⟩ := gfxFlipFull_eq hfb hback hsh
  refine ⟨_, _, gfxFlip_eq hfb hback hsh hshows, hfull, hfullSh, shows_mixBytes, ?_, ?_, ?_⟩
  · intro i hi
    rw [← copy_all]
    exact if_pos ⟨Nat.zero_le i, by omega⟩
  · intro a ha
    rw [visible_iff] at ha
    unfold mixBytes
    rw [if_neg]
    rintro ⟨hcol, hon⟩
    have hon := decide_eq_true_iff.mp hon
    exact ha ⟨hon.2, hcol⟩
  · intro x y hx hy hne
    have hend : Progress s.mode back sh fb (tiles s.mode).reverse
        (flipTiles s.mode back ⟨fb, sh, []⟩) := flipTiles_progress hshows
    simp only [flushedTiles, hfb, hback, hsh]
    refine hend.flushed x y hx ?_ hne
    rw [covered_all]
    exact decide_eq_true ⟨hx, hy⟩

/-- Three pixels in two rows with one byte to spare, all but one of them black. -/
def smallScreen : Screen where
  mode := ⟨3, 2, 13, by decide⟩
  fb := some Buf.zero
  back := some fun i => if i = 4 then 0xFFFFFF else 0
  shadow := some fun _ => 0
  snap := none
  lastFlipTiles := 0

/-- One tile has changed. -/
theorem flip_eq_full_small : ∃ fb' sh', gfxFlip smallScreen = { smallScreen with
    fb := some fb', shadow := some sh', lastFlipTiles := 1 } ∧
    (gfxFlipFull smallScreen).fb = some fb' := by
  have hblack : Shows smallScreen.mode Buf.zero fun _ => 0 := by
    intro x y j _ _ _
    simp [Buf.zero, Buf.le32]
  obtain ⟨fb', sh', hflip, hfull, _⟩ := flip_eq_full smallScreen rfl rfl rfl hblack
  refine ⟨fb', sh', ?_, hfull⟩
  have hone : UInt32.ofNat (flushedTiles smallScreen).length = 1 := by decide +kernel
  rw [hone] at hflip
  exact hflip

end JuampiOs.Gfx
