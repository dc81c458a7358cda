import Mathlib.Data.List.Basic
import Mathlib.Algebra.Group.Nat.Defs

/-!
# QOI images

The decoder of `src/qoi.c` and the encoder of `build/tools/qoi.h`, which makes the images of the disk.
Encoder and decoder each keep the last pixel and a table of 64 recent ones. The tables agree, but for
one slot: the decoder also enters the pixel of a run, and a run at the very start repeats a pixel that
the encoder has not seen (`Sim`).
-/

namespace JuampiOs.Gfx.Qoi

open Function List

def QOI_OP_INDEX : UInt8 := 0x00
def QOI_OP_DIFF : UInt8 := 0x40
def QOI_OP_LUMA : UInt8 := 0x80
def QOI_OP_RUN : UInt8 := 0xc0
def QOI_OP_RGB : UInt8 := 0xfe
def QOI_OP_RGBA : UInt8 := 0xff
def QOI_MASK_2 : UInt8 := 0xc0

structure Px where
  r : UInt8
  g : UInt8
  b : UInt8
  a : UInt8
deriving DecidableEq

/-- The pixel both sides start from: opaque black. -/
def black : Px := ⟨0, 0, 0, 255⟩

/-- A pixel's slot in the table. -/
def hash (px : Px) : Nat := (px.r.toNat * 3 + px.g.toNat * 5 + px.b.toNat * 7 + px.a.toNat * 11) % 64

/-! ## The encoder -/

structure Enc where
  index : Nat → Px
  prev : Px
  run : Nat

def runByte (run : Nat) : UInt8 := QOI_OP_RUN ||| UInt8.ofNat (run - 1)

/-- The chunk for a pixel that is not in the table. -/
def pixelChunk (px prev : Px) : List UInt8 :=
  if px.a = prev.a then
    let vr := (px.r - prev.r).toInt8
    let vg := (px.g - prev.g).toInt8
    let vb := (px.b - prev.b).toInt8
    if (-3 < vr ∧ vr < 2) ∧ (-3 < vg ∧ vg < 2) ∧ -3 < vb ∧ vb < 2 then
      [QOI_OP_DIFF ||| (vr + 2).toUInt8 <<< 4 ||| (vg + 2).toUInt8 <<< 2 ||| (vb + 2).toUInt8]
    else if (-9 < vr - vg ∧ vr - vg < 8) ∧ (-33 < vg ∧ vg < 32) ∧ -9 < vb - vg ∧ vb - vg < 8 then
      [QOI_OP_LUMA ||| (vg + 32).toUInt8, (vr - vg + 8).toUInt8 <<< 4 ||| (vb - vg + 8).toUInt8]
    else [QOI_OP_RGB, px.r, px.g, px.b]
  else [QOI_OP_RGBA, px.r, px.g, px.b, px.a]

/-- The bytes for a pixel that differs from the last one, and the encoder after it. -/
def changeChunk (st : Enc) (px : Px) : List UInt8 × Enc :=
  if st.index (hash px) = px then
    ([QOI_OP_INDEX ||| UInt8.ofNat (hash px)], { st with prev := px, run := 0 })
  else (pixelChunk px st.prev, ⟨update st.index (hash px) px, px, 0⟩)

/-- The pixel loop of `qoi_encode`. -/
def encodePixels : List Px → Enc → List UInt8
  | [], _ => []
  | px :: rest, st =>
    if px = st.prev then
      if st.run + 1 = 62 ∨ rest = [] then
        runByte (st.run + 1) :: encodePixels rest { st with run := 0 }
      else encodePixels rest { st with run := st.run + 1 }
    else
      (if 0 < st.run then [runByte st.run] else []) ++ (changeChunk st px).1 ++
        encodePixels rest (changeChunk st px).2

/-- `qoi_write_32`. -/
def write32 (v : Nat) : List UInt8 :=
  [UInt8.ofNat (v / 2 ^ 24), UInt8.ofNat (v / 2 ^ 16), UInt8.ofNat (v / 2 ^ 8), UInt8.ofNat v]

/-- `qoi_desc`. -/
structure Desc where
  width : Nat
  height : Nat
  channels : UInt8
  colorspace : UInt8

/-- Pixel `i` of the image; without an alpha channel it is opaque. -/
def pixelAt (data : Nat → UInt8) (channels i : Nat) : Px :=
  ⟨data (i * channels), data (i * channels + 1), data (i * channels + 2),
    if channels = 4 then data (i * channels + 3) else 255⟩

def qoiPadding : List UInt8 := [0, 0, 0, 0, 0, 0, 0, 1]

/-- `qoi_encode`; `none` is NULL. -/
def qoiEncode (data : Nat → UInt8) (desc : Desc) : Option (List UInt8) :=
  if desc.width = 0 ∨ desc.height = 0 ∨ desc.channels < 3 ∨ 4 < desc.channels ∨ 1 < desc.colorspace ∨
      400000000 / desc.width ≤ desc.height then none
  else
    let pixels := (range (desc.width * desc.height)).map (pixelAt data desc.channels.toNat)
    some ([113, 111, 105, 102] ++ write32 desc.width ++ write32 desc.height ++
      [desc.channels, desc.colorspace] ++ encodePixels pixels ⟨fun _ => ⟨0, 0, 0, 0⟩, black, 0⟩ ++
      qoiPadding)

/-! ## The decoder -/

structure Dec where
  px : Px
  cache : Nat → Px
  run : Nat
  /-- the bytes from `p[pos]` on, the end marker included -/
  rest : List UInt8

/-- Byte `i` of an image. A read past its end gives what memory holds there, `m`. -/
def byteAt (m : Nat → UInt8) (l : List UInt8) (i : Nat) : UInt8 := l.getD i (m (i - l.length))

/-- Read one chunk. -/
def decodeOp (m : Nat → UInt8) (d : Dec) : Dec :=
  let op := byteAt m d.rest 0
  let px := d.px
  if op = QOI_OP_RGB then
    { d with
      px := ⟨byteAt m d.rest 1, byteAt m d.rest 2, byteAt m d.rest 3, px.a⟩
      rest := d.rest.drop 4 }
  else if op = QOI_OP_RGBA then
    { d with
      px := ⟨byteAt m d.rest 1, byteAt m d.rest 2, byteAt m d.rest 3, byteAt m d.rest 4⟩
      rest := d.rest.drop 5 }
  else if op &&& QOI_MASK_2 = QOI_OP_INDEX then
    { d with px := d.cache (op &&& 0x3f).toNat, rest := d.rest.drop 1 }
  else if op &&& QOI_MASK_2 = QOI_OP_DIFF then
    { d with
      px := ⟨px.r + ((op >>> 4 &&& 0x3) - 2), px.g + ((op >>> 2 &&& 0x3) - 2),
        px.b + ((op &&& 0x3) - 2),
        px.a⟩
      rest := d.rest.drop 1 }
  else if op &&& QOI_MASK_2 = QOI_OP_LUMA then
    let op2 := byteAt m d.rest 1
    let dg : UInt8 := (op &&& 0x3f) - 32
    let hi : UInt8 := op2 >>> 4 &&& 0x0f
    { d with
      px := ⟨px.r + (dg - 8 + hi), px.g + dg, px.b + (dg - 8 + (op2 &&& 0x0f)), px.a⟩
      rest := d.rest.drop 2 }
  else { d with run := (op &&& 0x3f).toNat, rest := d.rest.drop 1 }

/-- One round of the pixel loop of `qoi_decode`. -/
def decodeStep (m : Nat → UInt8) (d : Dec) : Dec :=
  if 0 < d.run then { d with run := d.run - 1 }
  else if 8 < d.rest.length then
    let d := decodeOp m d
    { d with cache := update d.cache (hash d.px) d.px }
  else d

/-- `0xAARRGGBB`. -/
def argb (px : Px) : Nat :=
  px.a.toNat * 2 ^ 24 + px.r.toNat * 2 ^ 16 + px.g.toNat * 2 ^ 8 + px.b.toNat

def decodePixels (m : Nat → UInt8) : Nat → Dec → List Nat
  | 0, _ => []
  | n + 1, d => argb (decodeStep m d).px :: decodePixels m n (decodeStep m d)

def be32 (m : Nat → UInt8) (p : List UInt8) : Nat :=
  (byteAt m p 0).toNat * 2 ^ 24 + (byteAt m p 1).toNat * 2 ^ 16 + (byteAt m p 2).toNat * 2 ^ 8 +
    (byteAt m p 3).toNat

/-- `qoi_decode`: width, height and pixels; `none` is NULL. -/
def qoiDecode (m : Nat → UInt8) (data : List UInt8) : Option (Nat × Nat × List Nat) :=
  if data.length < 14 + 8 ∨ data.take 4 ≠ [113, 111, 105, 102] then none
  else
    let w := be32 m (data.drop 4)
    let h := be32 m (data.drop 8)
    let channels := byteAt m data 12
    if w = 0 ∨ h = 0 ∨ channels ≠ 3 ∧ channels ≠ 4 then none
    else if 2 ^ 24 < w * h then none
    else some (w, h, decodePixels m (w * h) ⟨black, fun _ => ⟨0, 0, 0, 0⟩, 0, data.drop 14⟩)

/-! ## Reads -/

variable {m : Nat → UInt8}

theorem length_decodePixels (n : Nat) (d : Dec) : (decodePixels m n d).length = n := by
  induction n generalizing d with
  | zero => rfl
  | succ n ih => rw [decodePixels, length_cons, ih]

theorem length_qoiDecode {data : List UInt8} {w h : Nat} {out : List Nat}
    (hout : qoiDecode m data = some (w, h, out)) : out.length = w * h := by
  unfold qoiDecode at hout
  split at hout
  · cases hout
  dsimp only at hout
  split at hout
  · cases hout
  split at hout
  · cases hout
  · obtain ⟨rfl, hrest⟩ := Prod.mk.inj (Option.some.inj hout)
    obtain ⟨rfl, rfl⟩ := Prod.mk.inj hrest
    exact length_decodePixels _ _

@[simp] theorem byteAt_cons_zero (x : UInt8) (l : List UInt8) : byteAt m (x :: l) 0 = x := rfl

@[simp] theorem byteAt_cons_succ (x : UInt8) (l : List UInt8) (i : Nat) :
    byteAt m (x :: l) (i + 1) = byteAt m l i := by
  rw [byteAt, byteAt, getD_cons_succ, length_cons, Nat.add_sub_add_right]

section Reads

variable (m m' : Nat → UInt8)

theorem byteAt_congr {l : List UInt8} {i : Nat} (h : i < l.length) :
    byteAt m l i = byteAt m' l i := by
  simp only [byteAt, getD_eq_getElem?_getD, getElem?_eq_getElem h, Option.getD_some]

/-- A chunk has at most five bytes. -/
theorem decodeOp_congr {d : Dec} (h : 5 ≤ d.rest.length) : decodeOp m d = decodeOp m' d := by
  unfold decodeOp
  rw [byteAt_congr m m' (show 0 < d.rest.length by omega),
    byteAt_congr m m' (show 1 < d.rest.length by omega),
    byteAt_congr m m' (show 2 < d.rest.length by omega),
    byteAt_congr m m' (show 3 < d.rest.length by omega),
    byteAt_congr m m' (show 4 < d.rest.length by omega)]

theorem decodePixels_congr (n : Nat) (d : Dec) : decodePixels m n d = decodePixels m' n d := by
  induction n generalizing d with
  | zero => rfl
  | succ n ih =>
    have hstep : decodeStep m d = decodeStep m' d := by
      unfold decodeStep
      split
      · rfl
      split
      · rw [decodeOp_congr m m' (by omega)]
      · rfl
    rw [decodePixels, decodePixels, hstep, ih]

theorem be32_congr {l : List UInt8} (h : 4 ≤ l.length) : be32 m l = be32 m' l := by
  rw [be32, be32, byteAt_congr m m' (show 0 < l.length by omega),
    byteAt_congr m m' (show 1 < l.length by omega), byteAt_congr m m' (show 2 < l.length by omega),
    byteAt_congr m m' (show 3 < l.length by omega)]

/-- **`qoi_decode` reads inside the image only**: what memory holds behind it does not matter. -/
theorem qoiDecode_congr (data : List UInt8) : qoiDecode m data = qoiDecode m' data := by
  unfold qoiDecode
  by_cases hsize : data.length < 14 + 8
  · rw [if_pos (.inl hsize), if_pos (.inl hsize)]
  · rw [be32_congr m m' (show 4 ≤ (data.drop 4).length by rw [length_drop]; omega),
      be32_congr m m' (show 4 ≤ (data.drop 8).length by rw [length_drop]; omega),
      byteAt_congr m m' (show 12 < data.length by omega)]
    simp only [decodePixels_congr m m']

end Reads

/-! ## Chunks -/

theorem forall_byte {P : UInt8 → Prop} (h : ∀ n : Fin 256, P (UInt8.ofNat n))
    (x : UInt8) : P x := by
  have hx := h ⟨x.toNat, x.toNat_lt⟩
  rwa [UInt8.ofNat_toNat] at hx

theorem biased2 (u : UInt8) : -3 < u.toInt8 ∧ u.toInt8 < 2 →
    ∃ x : Fin 4, (u.toInt8 + 2).toUInt8 = UInt8.ofNat x ∧ u = UInt8.ofNat x - 2 := by
  revert u
  exact forall_byte (by decide +kernel)

theorem biased8 (u : UInt8) : -9 < u.toInt8 ∧ u.toInt8 < 8 →
    ∃ x : Fin 16, (u.toInt8 + 8).toUInt8 = UInt8.ofNat x ∧ u = UInt8.ofNat x - 8 := by
  revert u
  exact forall_byte (by decide +kernel)

theorem biased32 (u : UInt8) : -33 < u.toInt8 ∧ u.toInt8 < 32 →
    ∃ x : Fin 64, (u.toInt8 + 32).toUInt8 = UInt8.ofNat x ∧ u = UInt8.ofNat x - 32 := by
  revert u
  exact forall_byte (by decide +kernel)

/-- A byte with one of the two-bit tags. -/
abbrev Tagged (op tag : UInt8) : Prop :=
  op ≠ QOI_OP_RGB ∧ op ≠ QOI_OP_RGBA ∧ op &&& QOI_MASK_2 = tag

theorem diff_byte : ∀ x y z : Fin 4,
    let op := QOI_OP_DIFF ||| UInt8.ofNat x <<< 4 ||| UInt8.ofNat y <<< 2 ||| UInt8.ofNat z
    Tagged op QOI_OP_DIFF ∧ op >>> 4 &&& 0x3 = UInt8.ofNat x ∧
      op >>> 2 &&& 0x3 = UInt8.ofNat y ∧ op &&& 0x3 = UInt8.ofNat z := by
  decide +kernel

theorem luma_byte : ∀ x : Fin 64, let op := QOI_OP_LUMA ||| UInt8.ofNat x
    Tagged op QOI_OP_LUMA ∧ op &&& 0x3f = UInt8.ofNat x := by
  decide +kernel

theorem luma_byte2 : ∀ x y : Fin 16, let op := UInt8.ofNat x <<< 4 ||| UInt8.ofNat y
    op >>> 4 &&& 0x0f = UInt8.ofNat x ∧ op &&& 0x0f = UInt8.ofNat y := by
  decide +kernel

theorem index_byte : ∀ x : Fin 64, let op := QOI_OP_INDEX ||| UInt8.ofNat x
    Tagged op QOI_OP_INDEX ∧ (op &&& 0x3f).toNat = x := by
  decide +kernel

theorem run_byte : ∀ x : Fin 62, let op := QOI_OP_RUN ||| UInt8.ofNat x
    Tagged op QOI_OP_RUN ∧ (op &&& 0x3f).toNat = x := by
  decide +kernel

theorem decodeOp_pixelChunk {d : Dec} {px : Px} {rest : List UInt8}
    (h : d.rest = pixelChunk px d.px ++ rest) :
    decodeOp m d = { d with px := px, rest := rest } := by
  obtain ⟨prev, cache, run, bytes⟩ := d
  obtain ⟨r, g, b, a⟩ := px
  dsimp only at h
  subst h
  unfold pixelChunk decodeOp
  dsimp only
  split
  · rename_i ha
    subst ha
    split
    · rename_i hdiff
      obtain ⟨x, hr, hx⟩ := biased2 _ hdiff.1
      obtain ⟨y, hg, hy⟩ := biased2 _ hdiff.2.1
      obtain ⟨z, hb, hz⟩ := biased2 _ hdiff.2.2
      obtain ⟨⟨hrgb, hrgba, htag⟩, h1, h2, h3⟩ := diff_byte x y z
      rw [hr, hg, hb]
      simp only [singleton_append, byteAt_cons_zero, drop_one, tail_cons]
      rw [if_neg hrgb, if_neg hrgba, if_neg (by rw [htag]; decide), if_pos htag, h1, h2, h3]
      congr 2 <;> grind
    · split
      · rename_i hluma
        rw [← UInt8.toInt8_sub, ← UInt8.toInt8_sub] at hluma ⊢
        obtain ⟨x, hr, hx⟩ := biased8 _ hluma.1
        obtain ⟨y, hg, hy⟩ := biased32 _ hluma.2.1
        obtain ⟨z, hb, hz⟩ := biased8 _ hluma.2.2
        obtain ⟨⟨hrgb, hrgba, htag⟩, h2⟩ := luma_byte y
        obtain ⟨h1, h3⟩ := luma_byte2 x z
        rw [hr, hg, hb]
        simp only [cons_append, nil_append, byteAt_cons_zero, byteAt_cons_succ,
          drop_succ_cons, drop_zero]
        rw [if_neg hrgb, if_neg hrgba, if_neg (by rw [htag]; decide), if_neg (by rw [htag]; decide),
          if_pos htag, h1, h2, h3]
        congr 2 <;> grind
      · rfl
  · rfl

/-! ## Encoder and decoder side by side -/

/-- The decoder stands where the encoder stands, with no run left. The tables differ at most in the
slot of `black`, which only the decoder may have entered. -/
structure Sim (st : Enc) (d : Dec) : Prop where
  run : d.run = 0
  px : d.px = st.prev
  table : ∀ k, d.cache k = st.index k ∨ k = hash black ∧ st.index k = ⟨0, 0, 0, 0⟩ ∧ d.cache k = black
  seen : st.index (hash st.prev) = st.prev ∨ st.prev = black ∧ st.index (hash black) = ⟨0, 0, 0, 0⟩

variable {st : Enc} {d : Dec} {px : Px} {rest : List UInt8}

theorem Sim.atRun (S : Sim st d) (run : Nat) : Sim { st with run := run } d :=
  ⟨S.run, S.px, S.table, S.seen⟩

/-- An encoder that has just read `px` and a decoder that has just entered it agree. -/
theorem Sim.enter (S : Sim st d) {index : Nat → Px}
    (hother : ∀ k, k ≠ hash px → index k = st.index k)
    (hidx : index (hash px) = px ∨ px = black ∧ index (hash black) = ⟨0, 0, 0, 0⟩) :
    Sim ⟨index, px, 0⟩ ⟨px, update d.cache (hash px) px, 0, rest⟩ := by
  refine ⟨rfl, rfl, ?_, hidx⟩
  intro k
  dsimp only
  by_cases hk : k = hash px
  · subst hk
    rw [update_self]
    rcases hidx with h | ⟨rfl, h⟩
    · exact .inl h.symm
    · exact .inr ⟨rfl, h, rfl⟩
  · rw [update_of_ne hk, hother k hk]
    exact S.table k

theorem decodeStep_chunk (hrun : d.run = 0) (hlen : 8 < d.rest.length) : decodeStep m d =
    { decodeOp m d with
      cache := update (decodeOp m d).cache (hash (decodeOp m d).px) (decodeOp m d).px } := by
  unfold decodeStep
  rw [if_neg (by omega), if_pos hlen]

theorem decode_repeat (k n : Nat) (px : Px) (cache : Nat → Px) (rest : List UInt8) :
    decodePixels m (k + n) ⟨px, cache, k, rest⟩ =
      replicate k (argb px) ++ decodePixels m n ⟨px, cache, 0, rest⟩ := by
  induction k with
  | zero => rw [zero_add, replicate_zero, nil_append]
  | succ k ih =>
    rw [Nat.succ_add]
    show argb px :: decodePixels m (k + n) ⟨px, cache, k, rest⟩ = _
    rw [ih, replicate_succ, cons_append]

theorem decodeOp_run {op : UInt8} {k : Nat} (hop : Tagged op QOI_OP_RUN ∧
    (op &&& 0x3f).toNat = k) (hd : d.rest = op :: rest) :
    decodeOp m d = { d with run := k, rest := rest } := by
  obtain ⟨⟨hrgb, hrgba, htag⟩, hval⟩ := hop
  unfold decodeOp
  rw [hd, byteAt_cons_zero, if_neg hrgb, if_neg hrgba, htag, if_neg (by decide), if_neg (by decide),
    if_neg (by decide), hval]
  rfl

theorem decodeOp_index {op : UInt8} {k : Nat} (hop : Tagged op QOI_OP_INDEX ∧
    (op &&& 0x3f).toNat = k) (hd : d.rest = op :: rest) :
    decodeOp m d = { d with px := d.cache k, rest := rest } := by
  obtain ⟨⟨hrgb, hrgba, htag⟩, hval⟩ := hop
  unfold decodeOp
  rw [hd, byteAt_cons_zero, if_neg hrgb, if_neg hrgba, if_pos htag, hval]
  rfl

theorem decode_runByte (S : Sim st d) {k : Nat} (hk : k < 62)
    (hd : d.rest = runByte (k + 1) :: rest)
    (hrest : 8 ≤ rest.length) :
    ∃ d', Sim { st with run := 0 } d' ∧ d'.rest = rest ∧ ∀ n, decodePixels m (k + 1 + n) d =
      replicate (k + 1) (argb st.prev) ++ decodePixels m n d' := by
  have hop : decodeOp m d = { d with run := k, rest := rest } :=
    decodeOp_run (run_byte ⟨k, hk⟩) hd
  have hlen : 8 < d.rest.length := by
    rw [hd, length_cons]
    omega
  have hstep := @decodeStep_chunk m d S.run hlen
  rw [hop] at hstep
  have S' : Sim { st with run := 0 } ⟨_, _, 0, rest⟩ := S.enter (fun _ _ => rfl) S.seen
  refine ⟨_, S', rfl, ?_⟩
  intro n
  rw [Nat.add_right_comm]
  show argb (decodeStep m d).px :: decodePixels m (k + n) (decodeStep m d) = _
  rw [hstep]
  dsimp only
  rw [decode_repeat, S.px, replicate_succ, cons_append]

theorem decode_changeChunk (S : Sim st d)
    (hd : d.rest = (changeChunk st px).1 ++ rest) (hrest : 8 ≤ rest.length) :
    ∃ d', Sim (changeChunk st px).2 d' ∧ d'.rest = rest ∧
      ∀ n, decodePixels m (n + 1) d = argb px :: decodePixels m n d' := by
  -- either way the decoder reads the pixel and enters it
  suffices h : decodeOp m d = { d with px := px, rest := rest } ∧ 8 < d.rest.length ∧
      Sim (changeChunk st px).2 ⟨px, update d.cache (hash px) px, 0, rest⟩ by
    obtain ⟨hop, hlen, hsim⟩ := h
    refine ⟨_, hsim, rfl, ?_⟩
    intro n
    rw [decodePixels, decodeStep_chunk S.run hlen, hop, S.run]
  unfold changeChunk at hd ⊢
  split
  · rename_i hidx
    rw [if_pos hidx] at hd
    -- the slot is not the one where the tables may differ: that one holds no pixel of this slot
    have hcache : d.cache (hash px) = px := by
      rcases S.table (hash px) with h | ⟨h, h0, _⟩
      · rw [h, hidx]
      · rw [hidx] at h0
        rw [h0] at h
        exact absurd h (by decide)
    refine ⟨?_, ?_, S.enter (fun _ _ => rfl) (.inl hidx)⟩
    · have hop : decodeOp m d = { d with px := d.cache (hash px), rest := rest } :=
        decodeOp_index (index_byte ⟨hash px, Nat.mod_lt _ (by decide)⟩) hd
      rw [hop, hcache]
    · rw [hd]
      exact Nat.succ_le_succ hrest
  · rename_i hidx
    rw [if_neg hidx] at hd
    refine ⟨decodeOp_pixelChunk (by rw [hd, S.px]), ?_, S.enter ?_ (.inl ?_)⟩
    · rw [hd, length_append]
      have hpos : 0 < (pixelChunk px st.prev).length := by
        unfold pixelChunk
        dsimp only
        split_ifs <;> exact Nat.succ_pos _
      dsimp only
      omega
    · intro k hk
      exact update_of_ne hk _ _
    · exact update_self _ _ _

theorem decode_encode (ps : List Px) : ∀ (st : Enc) (d : Dec), Sim st d → (ps = [] → st.run = 0) →
    st.run < 62 → d.rest = encodePixels ps st ++ qoiPadding →
    decodePixels m (st.run + ps.length) d = replicate st.run (argb st.prev) ++ ps.map argb := by
  induction ps with
  | nil =>
    intro st d S h0 _ _
    rw [h0 rfl]
    rfl
  | cons px ps ih =>
    intro st d S _ hrun hd
    have hpad : ∀ l, 8 ≤ (l ++ qoiPadding).length := by
      intro l
      rw [length_append]
      exact Nat.le_add_left 8 _
    rw [encodePixels] at hd
    by_cases hpx : px = st.prev
    · subst hpx
      rw [if_pos rfl] at hd
      by_cases hflush : st.run + 1 = 62 ∨ ps = []
      · -- the run is written out here, the pixels before it with it
        rw [if_pos hflush] at hd
        obtain ⟨d', S', hd', hdec⟩ := decode_runByte S hrun hd (hpad _)
        have htail := ih _ d' S' (fun _ => rfl) (Nat.succ_pos 61) hd'
        rw [zero_add] at htail
        rw [length_cons, add_comm ps.length, ← add_assoc, hdec, htail, replicate_succ',
          append_assoc]
        rfl
      · rw [if_neg hflush] at hd
        have hps : ps ≠ [] := fun h => hflush (.inr h)
        have hlt : st.run + 1 < 62 := by
          have := mt .inl hflush
          omega
        have htail := ih _ d (S.atRun (st.run + 1)) (fun h => absurd h hps) hlt hd
        rw [length_cons, add_comm ps.length, ← add_assoc, htail, replicate_succ', append_assoc]
        rfl
    · rw [if_neg hpx] at hd
      -- after the pending run the decoder stands before the chunk of the pixel
      obtain ⟨d1, S1, hd1, hdec1⟩ : ∃ d1, Sim { st with run := 0 } d1 ∧
          d1.rest = (changeChunk st px).1 ++ (encodePixels ps (changeChunk st px).2 ++ qoiPadding) ∧
          ∀ n, decodePixels m (st.run + n) d =
            replicate st.run (argb st.prev) ++ decodePixels m n d1 := by
        by_cases h0 : 0 < st.run
        · rw [if_pos h0, append_assoc, append_assoc] at hd
          obtain ⟨k, hk⟩ : ∃ k, st.run = k + 1 := ⟨st.run - 1, by omega⟩
          rw [hk] at hd ⊢
          refine decode_runByte S (by omega) hd ?_
          rw [← append_assoc]
          exact hpad _
        · obtain hz : st.run = 0 := by omega
          rw [if_neg h0, nil_append, append_assoc] at hd
          refine ⟨d, S.atRun 0, hd, ?_⟩
          intro n
          rw [hz, zero_add]
          rfl
      have S1' : Sim st d1 := S1.atRun st.run
      obtain ⟨d2, S2, hd2, hdec2⟩ := decode_changeChunk S1' hd1 (hpad _)
      have hrun2 : (changeChunk st px).2.run = 0 := by
        unfold changeChunk
        split <;> rfl
      have htail := ih _ d2 S2 (fun _ => hrun2) (by omega) hd2
      rw [hrun2, zero_add] at htail
      rw [length_cons, hdec1, hdec2, htail]
      rfl

/-! ## The header -/

theorem be32_write32 {v : Nat} (hv : v < 2 ^ 32) (l : List UInt8) : be32 m (write32 v ++ l) = v := by
  show (UInt8.ofNat (v / 2 ^ 24)).toNat * 2 ^ 24 + (UInt8.ofNat (v / 2 ^ 16)).toNat * 2 ^ 16 +
    (UInt8.ofNat (v / 2 ^ 8)).toNat * 2 ^ 8 + (UInt8.ofNat v).toNat = v
  simp only [UInt8.toNat_ofNat']
  omega

theorem qoiDecode_header {w h : Nat} (hw : w < 2 ^ 32) (hh : h < 2 ^ 32)
    (channels colorspace : UInt8)
    {chunks : List UInt8} (hlen : 8 ≤ chunks.length) :
    qoiDecode m ([113, 111, 105, 102] ++ write32 w ++ write32 h ++ [channels, colorspace] ++ chunks) =
      if w = 0 ∨ h = 0 ∨ channels ≠ 3 ∧ channels ≠ 4 then none
      else if 2 ^ 24 < w * h then none
      else some (w, h, decodePixels m (w * h) ⟨black, fun _ => ⟨0, 0, 0, 0⟩, 0, chunks⟩) := by
  have hsize : ¬ chunks.length + 14 < 14 + 8 := by omega
  unfold qoiDecode
  rw [if_neg]
  · show (if be32 m (write32 w ++ _) = 0 ∨ be32 m (write32 h ++ _) = 0 ∨
      channels ≠ 3 ∧ channels ≠ 4 then none
      else if 2 ^ 24 < be32 m (write32 w ++ _) * be32 m (write32 h ++ _) then none
      else some (be32 m (write32 w ++ _), be32 m (write32 h ++ _), decodePixels m
        (be32 m (write32 w ++ _) * be32 m (write32 h ++ _)) ⟨black, _, 0, chunks⟩)) = _
    rw [be32_write32 hw, be32_write32 hh]
  · exact not_or.mpr ⟨hsize, not_not.mpr rfl⟩

/-- The decoder gives back every image the encoder takes, as `0xAARRGGBB`. -/
theorem qoi_roundTrip (m data : Nat → UInt8) (desc : Desc) (hw : 1 ≤ desc.width)
    (hh : 1 ≤ desc.height)
    (hsize : desc.width * desc.height ≤ 2 ^ 24) (hch : desc.channels = 3 ∨ desc.channels = 4) :
    (desc.colorspace ≤ 1 → (qoiEncode data desc).isSome) ∧
      ∀ bytes, qoiEncode data desc = some bytes → qoiDecode m bytes = some (desc.width, desc.height,
        (range (desc.width * desc.height)).map fun i =>
          argb (pixelAt data desc.channels.toNat i)) := by
  set n := desc.width * desc.height with hn
  have hsum : (desc.height + 1) * desc.width ≤ 400000000 := by
    have h1 : 1 * desc.width ≤ desc.height * desc.width := Nat.mul_le_mul_right _ hh
    rw [Nat.add_mul, Nat.mul_comm desc.height] at *
    omega
  have hfits : desc.height < 400000000 / desc.width := (Nat.le_div_iff_mul_le hw).mpr hsum
  have hw32 : desc.width < 2 ^ 32 := by
    have := Nat.mul_le_mul_left desc.width hh
    omega
  have hh32 : desc.height < 2 ^ 32 := by
    have := Nat.mul_le_mul_right desc.height hw
    omega
  constructor
  · intro hcs
    unfold qoiEncode
    rw [if_neg]
    · rfl
    · have hcs' : ¬ 1 < desc.colorspace := UInt8.not_lt.mpr hcs
      have hch' : ¬ desc.channels < 3 ∧ ¬ 4 < desc.channels := by
        rcases hch with h | h <;> rw [h] <;> decide
      rintro (h | h | h | h | h | h)
      · omega
      · omega
      · exact hch'.1 h
      · exact hch'.2 h
      · exact hcs' h
      · omega
  · intro bytes henc
    unfold qoiEncode at henc
    split at henc
    · cases henc
    cases henc
    rw [append_assoc, qoiDecode_header hw32 hh32, if_neg, if_neg (by omega)]
    · have hdec := @decode_encode m ((range n).map (pixelAt data desc.channels.toNat))
        ⟨fun _ => ⟨0, 0, 0, 0⟩, black, 0⟩ ⟨black, fun _ => ⟨0, 0, 0, 0⟩, 0, _⟩
        ⟨rfl, rfl, fun _ => .inl rfl, .inr ⟨rfl, rfl⟩⟩ (fun _ => rfl) (by decide) rfl
      rw [zero_add, length_map, length_range, map_map] at hdec
      rw [hdec]
      rfl
    · rintro (h | h | ⟨h3, h4⟩)
      · omega
      · omega
      · exact hch.elim h3 h4
    · rw [length_append]
      exact Nat.le_add_left 8 _

/-- An image of two pixels. -/
theorem qoi_roundTrip_two : ∃ bytes, qoiEncode UInt8.ofNat ⟨2, 1, 3, 0⟩ = some bytes ∧
    qoiDecode (fun _ => 0) bytes = some (2, 1, [0xff000102, 0xff030405]) := by
  obtain ⟨hsome, hdec⟩ := qoi_roundTrip (fun _ => 0) UInt8.ofNat ⟨2, 1, 3, 0⟩ (by decide)
    (by decide) (by decide)
    (.inl rfl)
  obtain ⟨bytes, h⟩ := Option.isSome_iff_exists.mp (hsome (by decide))
  exact ⟨bytes, h, hdec bytes h⟩

end JuampiOs.Gfx.Qoi
