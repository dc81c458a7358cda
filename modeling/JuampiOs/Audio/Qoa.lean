import JuampiOs.Gfx.Qoi
import JuampiOs.Lib.Bytes

/-!
# QOA audio

`qoa_decode` of `src/qoa.c` on any bytes: it reads below `size` only and writes inside the samples
it allocated, and the weights of the predictor stay so small that nothing overflows
(`decoders_safe`, with the same of `qoi_decode`). The samples that are decoded are logged with the
state of the predictor before them, beside the array `out` they are stored to. `int` and `long` are
integers here, and that they fit is what is shown. The weights grow by at most 896 with a sample
and are read anew with every frame of at most 5120 samples.
-/

namespace JuampiOs.Audio.Qoa

open Function List

def QOA_SLICE_LEN : Nat := 20
def QOA_FRAME_LEN : Nat := 5120
def QOA_MAX_CHANNELS : Nat := 8

def qoaDequantTab : List (List Int) := [
  [1, -1, 3, -3, 5, -5, 7, -7],
  [5, -5, 18, -18, 32, -32, 49, -49],
  [16, -16, 53, -53, 95, -95, 147, -147],
  [34, -34, 113, -113, 203, -203, 315, -315],
  [63, -63, 210, -210, 378, -378, 588, -588],
  [104, -104, 345, -345, 621, -621, 966, -966],
  [158, -158, 528, -528, 950, -950, 1477, -1477],
  [228, -228, 760, -760, 1368, -1368, 2128, -2128],
  [316, -316, 1053, -1053, 1895, -1895, 2947, -2947],
  [422, -422, 1405, -1405, 2529, -2529, 3934, -3934],
  [548, -548, 1828, -1828, 3290, -3290, 5117, -5117],
  [696, -696, 2320, -2320, 4176, -4176, 6496, -6496],
  [868, -868, 2893, -2893, 5207, -5207, 8099, -8099],
  [1064, -1064, 3548, -3548, 6386, -6386, 9933, -9933],
  [1286, -1286, 4288, -4288, 7718, -7718, 12005, -12005],
  [1536, -1536, 5120, -5120, 9216, -9216, 14336, -14336]]

/-- `struct qoa_lms`. -/
@[ext]
structure Lms where
  history : Fin 4 → Int
  weights : Fin 4 → Int

/-- The sum in `lms_predict` after some rounds. -/
def lmsSum (l : Lms) : Nat → Int
  | 0 => 0
  | k + 1 => lmsSum l k + if h : k < 4 then l.weights ⟨k, h⟩ * l.history ⟨k, h⟩ else 0

def lmsPredict (l : Lms) : Int := lmsSum l 4 / 2 ^ 13

def lmsUpdate (l : Lms) (sample residual : Int) : Lms where
  weights i := l.weights i + if l.history i < 0 then -(residual / 2 ^ 4) else residual / 2 ^ 4
  history i := if h : i.val + 1 < 4 then l.history ⟨i + 1, h⟩ else sample

def clamp16 (v : Int) : Int := if v < -32768 then -32768 else if 32767 < v then 32767 else v

def be64 (p : Buf) (pos : Nat) : Nat :=
  (List.range 8).foldl (fun v i => v * 256 + (p (pos + i)).toNat) 0

def be16 (p : Buf) (pos : Nat) : Int :=
  (Int16.ofNat ((p pos).toNat * 256 + (p (pos + 1)).toNat)).toInt

/-- The predictor of channel `c`, from the bytes of a frame at `pos`. -/
def readLms (p : Buf) (pos c : Nat) : Lms where
  history i := be16 p (pos + 16 * c + 2 * i)
  weights i := be16 p (pos + 16 * c + 8 + 2 * i)

/-- A sample that was decoded: its place in `out`, the predictor before it and the residual. -/
structure Sample where
  index : Nat
  lms : Lms
  deq : Int

structure Dec where
  pos : Nat
  lms : Nat → Lms
  out : Nat → Int
  /-- the samples decoded so far, the last one first -/
  samples : List Sample

/-- Decode sample `i` of a frame for channel `c`. -/
def storeSample (channels done c i : Nat) (deq : Int) (d : Dec) : Dec :=
  let l := d.lms c
  let value := clamp16 (lmsPredict l + deq)
  { d with
    lms := update d.lms c (lmsUpdate l value deq)
    out := update d.out ((done + i) * channels + c) value
    samples := ⟨(done + i) * channels + c, l, deq⟩ :: d.samples }

/-- The samples of one slice, from sample `i` of the frame on. -/
def decodeSlice (channels done c sf : Nat) : (n i slice : Nat) → Dec → Dec
  | 0, _, _, d => d
  | n + 1, i, slice, d =>
    decodeSlice channels done c sf n (i + 1) (slice * 8 % 2 ^ 64)
      (storeSample channels done c i ((qoaDequantTab.getD sf []).getD (slice / 2 ^ 57 % 8) 0) d)

/-- The slices of `n` channels from `c` on; `true` is the jump to `out_of_data`. -/
def decodeGroup (p : Buf) (size channels done fsamples off : Nat) :
    (n c : Nat) → Dec → Dec × Bool
  | 0, _, d => (d, false)
  | n + 1, c, d =>
    if size < d.pos + 8 then (d, true)
    else
      let slice := be64 p d.pos
      decodeGroup p size channels done fsamples off n (c + 1)
        (decodeSlice channels done c (slice / 2 ^ 60 % 16)
          (min (off + QOA_SLICE_LEN) fsamples - off) off slice { d with pos := d.pos + 8 })

/-- The loop over the slices of a frame. -/
def decodeSlices (p : Buf) (size channels done fsamples off : Nat) (d : Dec) : Dec × Bool :=
  if off < fsamples then
    match decodeGroup p size channels done fsamples off channels 0 d with
    | (d, true) => (d, true)
    | (d, false) => decodeSlices p size channels done fsamples (off + QOA_SLICE_LEN) d
  else (d, false)
termination_by fsamples - off
decreasing_by simp only [QOA_SLICE_LEN]; omega

/-- Read the predictors of a frame. -/
def readFrame (p : Buf) (channels pos : Nat) (d : Dec) : Dec :=
  { d with
    pos := pos + channels * 16
    lms := fun c => if c < channels then readLms p pos c else d.lms c }

/-- The samples of a frame that are taken: the header total is not exceeded. -/
def frameSamples (total done fsamples : Nat) : Nat :=
  if total < done + fsamples then total - done else fsamples

/-- The loop over the frames; `done` is the number of samples decoded in whole frames. -/
def decodeFrames (p : Buf) (size channels total done : Nat) (d : Dec) : Nat × Dec :=
  if done < total ∧ d.pos + 8 ≤ size then
    let fh := be64 p d.pos
    let fsamples := fh / 2 ^ 16 % 2 ^ 16
    if fh / 2 ^ 56 % 2 ^ 8 ≠ channels ∨ fsamples = 0 ∨ QOA_FRAME_LEN < fsamples then (done, d)
    else if size < d.pos + 8 + channels * 16 then (done, d)
    else
      match decodeSlices p size channels done (frameSamples total done fsamples) 0
        (readFrame p channels (d.pos + 8) d) with
      | (d, true) => (done, d)
      | (d, false) => decodeFrames p size channels total (done + frameSamples total done fsamples) d
  else (done, d)
termination_by total - done
decreasing_by unfold frameSamples; split <;> omega

/-- What `qoa_decode` reports and returns, and the log of the samples it decoded. -/
structure Decoded where
  channels : Nat
  samplerate : Nat
  samples : Nat
  total : Nat
  out : Nat → Int
  stored : List Sample

/-- `qoa_decode` behind the checks of the header. The predictors are read before they are used. -/
def decodeBody (p : Buf) (size total channels rate : Nat) : Decoded :=
  let r := decodeFrames p size channels total 0
    ⟨8, fun _ => ⟨fun _ => 0, fun _ => 0⟩, fun _ => 0, []⟩
  ⟨channels, rate, r.1, total, r.2.out, r.2.samples⟩

/-- `qoa_decode`; `none` is NULL. -/
def qoaDecode (p : Buf) (size : Nat) : Option Decoded :=
  if size < 16 ∨ (p 0 ≠ 113 ∨ p 1 ≠ 111 ∨ p 2 ≠ 97 ∨ p 3 ≠ 102) then none
  else
    let total := (p 4).toNat * 2 ^ 24 + (p 5).toNat * 2 ^ 16 + (p 6).toNat * 2 ^ 8 + (p 7).toNat
    let fh := be64 p 8
    let channels := fh / 2 ^ 56 % 2 ^ 8
    let rate := fh / 2 ^ 32 % 2 ^ 24
    if total = 0 ∨ channels = 0 ∨ QOA_MAX_CHANNELS < channels ∨ rate = 0 then none
    else if 2 ^ 27 < total * channels then none
    else some (decodeBody p size total channels rate)

/-! ## Reads -/

section Reads

variable {p p' : Buf} {size : Nat} (hp : ∀ i, i < size → p i = p' i)
include hp

variable {pos : Nat}

theorem be64_congr (h : pos + 8 ≤ size) : be64 p' pos = be64 p pos := by
  refine foldl_ext _ _ 0 fun v i hi => ?_
  have hi := mem_range.mp hi
  rw [hp (pos + i) (by omega)]

theorem be16_congr (h : pos + 2 ≤ size) : be16 p' pos = be16 p pos := by
  rw [be16, be16, hp pos (by omega), hp (pos + 1) (by omega)]

theorem readLms_congr {c : Nat} (h : pos + 16 * c + 16 ≤ size) :
    readLms p' pos c = readLms p pos c := by
  ext i
  · have hi := i.isLt
    exact be16_congr hp (show pos + 16 * c + 2 * i + 2 ≤ size by omega)
  · have hi := i.isLt
    exact be16_congr hp (show pos + 16 * c + 8 + 2 * i + 2 ≤ size by omega)

variable {channels fsamples : Nat}

theorem decodeGroup_congr {done off : Nat} (n c : Nat) (d : Dec) :
    decodeGroup p' size channels done fsamples off n c d =
      decodeGroup p size channels done fsamples off n c d := by
  induction n generalizing c d with
  | zero => rfl
  | succ n ih =>
    rw [decodeGroup, decodeGroup]
    by_cases hpos : size < d.pos + 8
    · rw [if_pos hpos, if_pos hpos]
    · rw [if_neg hpos, if_neg hpos, be64_congr hp (by omega), ih]

theorem decodeSlices_congr {done : Nat} (off : Nat) (d : Dec) :
    decodeSlices p' size channels done fsamples off d =
      decodeSlices p size channels done fsamples off d := by
  fun_induction decodeSlices p size channels done fsamples off d with
  | case1 off d hlt d' heq => rw [decodeSlices, if_pos hlt, decodeGroup_congr hp, heq]
  | case2 off d hlt d' heq ih => rw [decodeSlices, if_pos hlt, decodeGroup_congr hp, heq, ← ih]
  | case3 off d hlt => rw [decodeSlices, if_neg hlt]

theorem readFrame_congr (h : pos + channels * 16 ≤ size) (d : Dec) :
    readFrame p' channels pos d = readFrame p channels pos d := by
  have hlms : (fun c => if c < channels then readLms p' pos c else d.lms c) =
      fun c => if c < channels then readLms p pos c else d.lms c := by
    funext c
    by_cases hc : c < channels
    · rw [if_pos hc, if_pos hc, readLms_congr hp (by omega)]
    · rw [if_neg hc, if_neg hc]
  rw [readFrame, readFrame, hlms]

theorem decodeFrames_congr {total : Nat} (done : Nat) (d : Dec) :
    decodeFrames p' size channels total done d = decodeFrames p size channels total done d := by
  fun_induction decodeFrames p size channels total done d with
  | case1 done d hgo fh fsamples hframe =>
    rw [decodeFrames, if_pos hgo, be64_congr hp hgo.2]
    exact if_pos hframe
  | case2 done d hgo fh fsamples hframe hroom =>
    rw [decodeFrames, if_pos hgo, be64_congr hp hgo.2]
    exact (if_neg hframe).trans (if_pos hroom)
  | case3 done d hgo fh fsamples hframe hroom d' heq =>
    rw [decodeFrames, if_pos hgo, be64_congr hp hgo.2]
    refine (if_neg hframe).trans ((if_neg hroom).trans ?_)
    rw [readFrame_congr hp (Nat.le_of_not_lt hroom), decodeSlices_congr hp, heq]
  | case4 done d hgo fh fsamples hframe hroom d' heq ih =>
    rw [decodeFrames, if_pos hgo, be64_congr hp hgo.2]
    refine (if_neg hframe).trans ((if_neg hroom).trans ?_)
    rw [readFrame_congr hp (Nat.le_of_not_lt hroom), decodeSlices_congr hp, heq]
    exact ih
  | case5 done d hgo => rw [decodeFrames, if_neg hgo]

theorem qoaDecode_congr : qoaDecode p' size = qoaDecode p size := by
  unfold qoaDecode
  by_cases hsize : size < 16
  · rw [if_pos (.inl hsize), if_pos (.inl hsize)]
  · rw [hp 0 (by omega), hp 1 (by omega), hp 2 (by omega), hp 3 (by omega), hp 4 (by omega),
      hp 5 (by omega), hp 6 (by omega), hp 7 (by omega), be64_congr hp (by omega)]
    simp only [decodeBody, decodeFrames_congr hp]

end Reads

/-! ## The predictor -/

/-- The bounds of a predictor after `i` samples of a frame. -/
structure Lms.Bounded (l : Lms) (i : Nat) : Prop where
  history : ∀ j, (l.history j).natAbs ≤ 32768
  weights : ∀ j, (l.weights j).natAbs ≤ 32768 + i * 896

/-- The value of a sample: the clamp of prediction plus residual. -/
def Sample.value (s : Sample) : Int := clamp16 (lmsPredict s.lms + s.deq)

/-- What is claimed of a sample: its place, and that everything on the way to its value fits the
type it has in the source. -/
structure Sample.Sound (limit : Nat) (s : Sample) : Prop where
  index : s.index < limit
  weights : ∀ j, (s.lms.weights j).natAbs ≤ 32768 + 5120 * 896
  updated : ∀ j, ((lmsUpdate s.lms s.value s.deq).weights j).natAbs ≤ 32768 + 5120 * 896
  sum : ∀ k ≤ 4, (lmsSum s.lms k).natAbs < 2 ^ 63
  term : ∀ j, (s.lms.weights j * s.lms.history j).natAbs < 2 ^ 63
  predicted : (lmsPredict s.lms).natAbs < 2 ^ 31
  total : (lmsPredict s.lms + s.deq).natAbs < 2 ^ 31

variable {l : Lms} {i : Nat} {deq : Int}

theorem dequant_le {sf q : Nat} (hsf : sf < 16) (hq : q < 8) :
    ((qoaDequantTab.getD sf []).getD q 0).natAbs ≤ 14336 := by
  have hall : ∀ sf : Fin 16, ∀ q : Fin 8,
      ((qoaDequantTab.getD sf []).getD q 0).natAbs ≤ 14336 := by decide
  exact hall ⟨sf, hsf⟩ ⟨q, hq⟩

theorem clamp16_le (v : Int) : (clamp16 v).natAbs ≤ 32768 := by
  unfold clamp16
  split
  · decide
  · split <;> omega

theorem Lms.Bounded.update (h : l.Bounded i) (hdeq : deq.natAbs ≤ 14336) {v : Int}
    (hv : v.natAbs ≤ 32768) : (lmsUpdate l v deq).Bounded (i + 1) := by
  constructor
  · intro j
    unfold lmsUpdate
    dsimp only
    split
    · exact h.history _
    · exact hv
  · intro j
    have hw := h.weights j
    show (l.weights j + if l.history j < 0 then -(deq / 2 ^ 4) else deq / 2 ^ 4).natAbs ≤ _
    split <;> omega

theorem lmsSum_le {m : Nat} (h : ∀ j, (l.weights j * l.history j).natAbs ≤ m) (k : Nat) :
    (lmsSum l k).natAbs ≤ k * m := by
  induction k with
  | zero => exact Nat.zero_le _
  | succ k ih =>
    have hterm : (if h : k < 4 then l.weights ⟨k, h⟩ * l.history ⟨k, h⟩ else 0).natAbs ≤ m := by
      split
      · exact h _
      · exact Nat.zero_le _
    rw [lmsSum, Nat.succ_mul]
    exact (Int.natAbs_add_le _ _).trans (add_le_add ih hterm)

theorem Lms.Bounded.sound (h : l.Bounded i) (hi : i + 1 ≤ 5120) (hdeq : deq.natAbs ≤ 14336)
    {index limit : Nat} (hindex : index < limit) :
    Sample.Sound limit ⟨index, l, deq⟩ := by
  have hweights : ∀ j, (l.weights j).natAbs ≤ 4620288 := by
    intro j
    have hw := h.weights j
    omega
  have hterm : ∀ j, (l.weights j * l.history j).natAbs ≤ 151397597184 := by
    intro j
    rw [Int.natAbs_mul]
    exact Nat.mul_le_mul (hweights j) (h.history j)
  have hsum := lmsSum_le hterm
  have hfour := hsum 4
  have hpredict : lmsPredict l = lmsSum l 4 / 2 ^ 13 := rfl
  refine ⟨hindex, hweights, fun j => ?_, fun k hk => ?_, fun j => ?_, ?_, ?_⟩ <;> dsimp only
  · exact ((h.update hdeq (clamp16_le (lmsPredict l + deq))).weights j).trans (by omega)
  · have hk' := hsum k
    omega
  · have hj := hterm j
    omega
  · omega
  · omega

theorem be16_le (p : Buf) (pos : Nat) : (be16 p pos).natAbs ≤ 32768 := by
  unfold be16
  generalize Int16.ofNat _ = x
  have hlow := x.le_toInt
  have hhigh := x.toInt_lt
  omega

theorem readLms_bounded (p : Buf) (pos c : Nat) : (readLms p pos c).Bounded 0 :=
  ⟨fun _ => be16_le _ _, fun _ => (be16_le _ _).trans (Nat.le_add_right _ _)⟩

/-! ## The loops -/

/-- Every sample in the log is sound, and every place it names holds the value of a sample. -/
structure Dec.Good (limit : Nat) (d : Dec) : Prop where
  sound : ∀ s ∈ d.samples, s.Sound limit
  filled : ∀ s ∈ d.samples, ∃ t ∈ d.samples, t.index = s.index ∧ d.out s.index = t.value

/-- Place `x` of `out` has been stored to. -/
def Dec.Stored (d : Dec) (x : Nat) : Prop := ∃ s ∈ d.samples, s.index = x

section Loops

variable {p : Buf} {size channels done fsamples limit : Nat} {d : Dec}

theorem storeSample_good {c : Nat} (hd : d.Good limit)
    (hs : Sample.Sound limit ⟨(done + i) * channels + c, d.lms c, deq⟩) :
    (storeSample channels done c i deq d).Good limit := by
  refine ⟨forall_mem_cons.mpr ⟨hs, hd.sound⟩, ?_⟩
  intro s hmem
  by_cases hsame : s.index = (done + i) * channels + c
  · refine ⟨_, mem_cons_self, hsame.symm, ?_⟩
    show update d.out _ _ s.index = _
    rw [hsame, update_self]
    rfl
  · have hold : s ∈ d.samples := (mem_cons.mp hmem).resolve_left fun h => hsame (by rw [h])
    obtain ⟨t, ht, hindex, hout⟩ := hd.filled s hold
    refine ⟨t, mem_cons_of_mem _ ht, hindex, ?_⟩
    show update d.out _ _ s.index = _
    rw [update_of_ne hsame, hout]

/-- What one slice does: the predictor of its channel stays bounded, the other ones are not
touched, and its samples are stored. -/
theorem decodeSlice_spec {c sf slice n : Nat} (hc : c < channels) (hsf : sf < 16)
    (h : (d.lms c).Bounded i) (hn : i + n ≤ 5120) (hlimit : (done + (i + n)) * channels ≤ limit)
    (hd : d.Good limit) : let d' := decodeSlice channels done c sf n i slice d
    (d'.lms c).Bounded (i + n) ∧ (∀ k, k ≠ c → d'.lms k = d.lms k) ∧ d'.Good limit ∧
      (∀ x, d.Stored x → d'.Stored x) ∧
      ∀ k, i ≤ k → k < i + n → d'.Stored ((done + k) * channels + c) := by
  induction n generalizing i slice d with
  | zero => exact ⟨h, fun k _ => rfl, hd, fun x hx => hx, fun k hk hk' => absurd hk (by omega)⟩
  | succ n ih =>
    rw [decodeSlice]
    have hdeq := dequant_le hsf (Nat.mod_lt (slice / 2 ^ 57) (by decide : 0 < 8))
    have hindex : (done + i) * channels + c < limit := by
      have hle : (done + i + 1) * channels ≤ (done + (i + (n + 1))) * channels :=
        Nat.mul_le_mul_right _ (by omega)
      rw [Nat.succ_mul] at hle
      omega
    rw [show i + (n + 1) = i + 1 + n by omega] at hn hlimit ⊢
    generalize (qoaDequantTab.getD sf []).getD (slice / 2 ^ 57 % 8) 0 = deq at hdeq ⊢
    have hnext : ((storeSample channels done c i deq d).lms c).Bounded (i + 1) := by
      show (update d.lms c _ c).Bounded (i + 1)
      rw [update_self]
      exact h.update hdeq (clamp16_le _)
    obtain ⟨hlms, hother, hgood, hkeep, hnew⟩ := @ih (i + 1) (storeSample channels done c i deq d)
      (slice * 8 % 2 ^ 64) hnext hn hlimit
      (storeSample_good hd (h.sound (by omega) hdeq hindex))
    refine ⟨hlms, fun k hk => (hother k hk).trans (update_of_ne hk _ _), hgood, ?_, ?_⟩
    · rintro x ⟨s, hs, rfl⟩
      exact hkeep _ ⟨s, mem_cons_of_mem _ hs, rfl⟩
    · intro k hk hk'
      by_cases hki : k = i
      · exact hkeep _ ⟨_, mem_cons_self, by rw [hki]⟩
      · exact hnew k (by omega) hk'

/-- What the slices of one group do. If the data last, the samples of the group are stored for
every channel. -/
theorem decodeGroup_spec {off n c : Nat} (hc : c + n = channels) (hoff : off < fsamples)
    (hfs : fsamples ≤ 5120) (hlimit : (done + fsamples) * channels ≤ limit)
    (h : ∀ k < channels, (d.lms k).Bounded (if k < c then min (off + 20) fsamples else off))
    (hd : d.Good limit) : let r := decodeGroup p size channels done fsamples off n c d
    r.1.Good limit ∧ (∀ x, d.Stored x → r.1.Stored x) ∧
      (r.2 = false → ∀ k < channels, (r.1.lms k).Bounded (min (off + 20) fsamples) ∧
        ∀ j, c ≤ k → off ≤ j → j < min (off + 20) fsamples →
          r.1.Stored ((done + j) * channels + k)) := by
  induction n generalizing c d with
  | zero =>
    refine ⟨hd, fun x hx => hx, fun _ k hk => ⟨?_, fun j hck => absurd hck (by omega)⟩⟩
    have hk' := h k hk
    rwa [if_pos (by omega)] at hk'
  | succ n ih =>
    rw [decodeGroup]
    split
    · refine ⟨hd, fun x hx => hx, fun hfalse => ?_⟩
      cases hfalse
    have hself := h c (by omega)
    rw [if_neg (lt_irrefl c)] at hself
    have hend : off + (min (off + 20) fsamples - off) = min (off + 20) fsamples := by omega
    have hle : (done + min (off + 20) fsamples) * channels ≤ limit :=
      (Nat.mul_le_mul_right _ (by omega)).trans hlimit
    obtain ⟨hlms, hother, hgood, hkeep, hnew⟩ := @decodeSlice_spec off channels done limit
      { d with pos := d.pos + 8 } c (be64 p d.pos / 2 ^ 60 % 16) (be64 p d.pos)
      (min (off + 20) fsamples - off) (by omega) (Nat.mod_lt _ (by decide)) hself (by omega)
      (hend.symm ▸ hle) ⟨hd.sound, hd.filled⟩
    rw [hend] at hlms hnew
    obtain ⟨hgood', hkeep', hrest⟩ := ih (c := c + 1) (by omega) (fun k hk => by
      by_cases hkc : k = c
      · subst hkc
        rw [if_pos (Nat.lt_succ_self k)]
        exact hlms
      · have hk' := h k hk
        rw [if_congr (show k < c + 1 ↔ k < c by omega) rfl rfl]
        exact (hother k hkc).symm ▸ hk') hgood
    refine ⟨hgood', fun x hx => hkeep' x (hkeep x hx), fun hdone k hk => ?_⟩
    obtain ⟨hbound, hstored⟩ := hrest hdone k hk
    refine ⟨hbound, fun j hck hj hj' => ?_⟩
    by_cases hkc : k = c
    · subst hkc
      exact hkeep' _ (hnew j hj hj')
    · exact hstored j (by omega) hj hj'

theorem decodeSlices_spec {off : Nat} (hfs : fsamples ≤ 5120)
    (hlimit : (done + fsamples) * channels ≤ limit)
    (h : ∀ k < channels, (d.lms k).Bounded (min off fsamples))
    (hd : d.Good limit) : let r := decodeSlices p size channels done fsamples off d
    r.1.Good limit ∧ (∀ x, d.Stored x → r.1.Stored x) ∧
      (r.2 = false → ∀ k < channels, ∀ j, off ≤ j → j < fsamples →
        r.1.Stored ((done + j) * channels + k)) := by
  fun_induction decodeSlices p size channels done fsamples off d with
  | case1 off d hlt d' heq =>
    obtain ⟨hgood, hkeep, _⟩ := @decodeGroup_spec p size channels done fsamples limit d off channels
      0 (zero_add _) hlt hfs hlimit (by simpa [le_of_lt hlt] using h) hd
    rw [heq] at hgood hkeep
    refine ⟨hgood, hkeep, fun hfalse => ?_⟩
    cases hfalse
  | case2 off d hlt d' heq ih =>
    obtain ⟨hgood, hkeep, hgroup⟩ := @decodeGroup_spec p size channels done fsamples limit d off
      channels 0 (zero_add _) hlt hfs hlimit (by simpa [le_of_lt hlt] using h) hd
    rw [heq] at hgood hkeep hgroup
    obtain ⟨hgood', hkeep', hrest⟩ := ih (fun k hk => (hgroup rfl k hk).1) hgood
    refine ⟨hgood', fun x hx => hkeep' x (hkeep x hx), fun hdone k hk j hj hj' => ?_⟩
    by_cases hlast : j < off + 20
    · exact hkeep' _ ((hgroup rfl k hk).2 j (Nat.zero_le k) hj (by omega))
    · exact hrest hdone k hk j (by simp only [QOA_SLICE_LEN]; omega) hj'
  | case3 off d hlt => exact ⟨hd, fun x hx => hx, fun _ k _ j hj hj' => absurd hj' (by omega)⟩

theorem frameSamples_le {total : Nat} (hdone : done < total) (hfs : fsamples ≤ 5120) :
    frameSamples total done fsamples ≤ 5120 ∧ done + frameSamples total done fsamples ≤ total := by
  unfold frameSamples
  split <;> omega

/-- A frame is decoded from predictors that are read anew. -/
theorem decodeFrame_spec {total pos : Nat} (hdone : done < total) (hfs : fsamples ≤ 5120)
    (hd : d.Good (total * channels)) :
    let r := decodeSlices p size channels done (frameSamples total done fsamples) 0
      (readFrame p channels pos d)
    r.1.Good (total * channels) ∧ (∀ x, d.Stored x → r.1.Stored x) ∧
      (r.2 = false → ∀ k < channels, ∀ j, 0 ≤ j → j < frameSamples total done fsamples →
        r.1.Stored ((done + j) * channels + k)) := by
  obtain ⟨hle, hend⟩ := frameSamples_le hdone hfs
  refine @decodeSlices_spec p size channels done _ _ (readFrame p channels pos d) 0 hle
    (Nat.mul_le_mul_right _ hend) (fun k hk => ?_) ⟨hd.sound, hd.filled⟩
  show (if k < channels then readLms p pos k else d.lms k).Bounded _
  rw [if_pos hk, zero_min]
  exact readLms_bounded p pos k

theorem decodeFrames_spec {total : Nat} (hdone : done ≤ total) (hd : d.Good (total * channels))
    (hstored : ∀ k < done, ∀ c < channels, d.Stored (k * channels + c)) :
    let r := decodeFrames p size channels total done d
    r.1 ≤ total ∧ r.2.Good (total * channels) ∧
      ∀ k < r.1, ∀ c < channels, r.2.Stored (k * channels + c) := by
  fun_induction decodeFrames p size channels total done d with
  | case1 | case2 | case5 => exact ⟨hdone, hd, hstored⟩
  | case3 done d hgo fh fsamples hframe hroom d' heq =>
    have hfs : fsamples ≤ 5120 := Nat.le_of_not_lt fun hlt => hframe (.inr (.inr hlt))
    obtain ⟨hgood, hkeep, _⟩ := @decodeFrame_spec p size channels done fsamples d total (d.pos + 8)
      hgo.1 hfs hd
    rw [heq] at hgood hkeep
    exact ⟨hdone, hgood, fun k hk c hc => hkeep _ (hstored k hk c hc)⟩
  | case4 done d hgo fh fsamples hframe hroom d' heq ih =>
    have hfs : fsamples ≤ 5120 := Nat.le_of_not_lt fun hlt => hframe (.inr (.inr hlt))
    obtain ⟨hgood, hkeep, hnew⟩ := @decodeFrame_spec p size channels done fsamples d total
      (d.pos + 8) hgo.1 hfs hd
    rw [heq] at hgood hkeep hnew
    refine ih (frameSamples_le hgo.1 hfs).2 hgood fun k hk c hc => ?_
    by_cases hold : k < done
    · exact hkeep _ (hstored k hold c hc)
    · have hlast := hnew rfl c hc (k - done) (Nat.zero_le _) (by omega)
      rwa [Nat.add_sub_of_le (Nat.le_of_not_lt hold)] at hlast

end Loops

/-- What is claimed of the result: its samples are sound, it reports no more of them than the header
says, and every value it reports is that of a sample. -/
structure Decoded.Sound (r : Decoded) : Prop where
  sound : ∀ s ∈ r.stored, s.Sound (r.total * r.channels)
  samples : r.samples ≤ r.total
  values : ∀ x, x < r.samples * r.channels → ∃ s ∈ r.stored, s.index = x ∧ r.out x = s.value

theorem decodeBody_sound (p : Buf) (size total channels rate : Nat) :
    (decodeBody p size total channels rate).Sound := by
  obtain ⟨hle, hgood, hstored⟩ := @decodeFrames_spec p size channels 0
    ⟨8, fun _ => ⟨fun _ => 0, fun _ => 0⟩, fun _ => 0, []⟩ total (Nat.zero_le _)
    ⟨fun _ hs => absurd hs List.not_mem_nil, fun _ hs => absurd hs List.not_mem_nil⟩
    fun k hk => absurd hk (Nat.not_lt_zero k)
  refine ⟨hgood.sound, hle, fun x hx => ?_⟩
  have hpos : 0 < channels := Nat.pos_of_ne_zero fun h => by
    subst h
    exact absurd hx (Nat.not_lt_zero x)
  obtain ⟨s, hs, hindex⟩ := hstored (x / channels) (Nat.div_lt_of_lt_mul (by rwa [Nat.mul_comm]))
    (x % channels) (Nat.mod_lt _ hpos)
  rw [Nat.div_add_mod' x channels] at hindex
  obtain ⟨t, ht, htindex, hout⟩ := hgood.filled s hs
  rw [hindex] at htindex hout
  exact ⟨t, ht, htindex, hout⟩

theorem qoaDecode_sound {p : Buf} {size : Nat} {r : Decoded} (h : qoaDecode p size = some r) :
    r.Sound := by
  unfold qoaDecode at h
  split at h
  · cases h
  dsimp only at h
  split at h
  · cases h
  · split at h
    · cases h
    · rw [← Option.some.inj h]
      exact decodeBody_sound ..

open Gfx.Qoi in
/-- **The decoders are safe on any input.** `qoa_decode` reads below `size` only; every sample it
stores is inside the `total * channels` it allocated and overflows nothing on the way; it reports
no more than `total` samples, and each of these is the clamped sum of prediction and residual.
`qoi_decode` reads inside the image only, its table has an index below 64, and it stores `w * h`
pixels. -/
theorem decoders_safe :
    (∀ (p p' : Buf) (size : Nat), (∀ i, i < size → p i = p' i) →
      qoaDecode p' size = qoaDecode p size) ∧
    (∀ (p : Buf) (size : Nat) (r : Decoded), qoaDecode p size = some r → r.Sound) ∧
    (∀ m m' data, qoiDecode m data = qoiDecode m' data) ∧
    ((∀ op : UInt8, (op &&& 0x3f).toNat < 64) ∧ ∀ px : Px, Gfx.Qoi.hash px < 64) ∧
    ∀ m data w h out, qoiDecode m data = some (w, h, out) → out.length = w * h := by
  refine ⟨fun p p' size hp => qoaDecode_congr hp, ?_, ?_, ⟨?_, fun px => Nat.mod_lt _ (by decide)⟩,
    ?_⟩
  · exact fun p size r hr => qoaDecode_sound hr
  · exact fun m m' data => qoiDecode_congr m m' data
  · exact forall_byte (by decide +kernel)
  · exact fun m data w h out hout => length_qoiDecode hout

/-- A file with one frame of twenty samples. -/
def qoaFile : List UInt8 :=
  [113, 111, 97, 102, 0, 0, 0, 20, 1, 0, 172, 68, 0, 20, 0, 40,
    0, 1, 0, 2, 0, 3, 0, 4, 0, 0, 0, 0, 224, 0, 64, 0, 0x51, 2, 3, 4, 5, 6, 7, 8]

/-- An image with one pixel. -/
def qoiFile : List UInt8 :=
  [113, 111, 105, 102, 0, 0, 0, 1, 0, 0, 0, 1, 3, 0, 0xfe, 1, 2, 3, 0, 0, 0, 0, 0, 0, 0, 1]

/-- The last of the samples is clamped, and the pixel does not depend on what follows the image. -/
theorem decoders_safe_files :
    (∃ r, qoaDecode (fun i => qoaFile.getD i 0) 40 = some r ∧ r.samples = 20 ∧ r.out 19 = 32767 ∧
      ∃ s ∈ r.stored, s.index = 19 ∧ r.out 19 = s.value) ∧
    Gfx.Qoi.qoiDecode (fun _ => 7) qoiFile = some (1, 1, [0xff010203]) := by
  obtain ⟨_, hqoa, hqoi, _⟩ := decoders_safe
  refine ⟨?_, (hqoi _ (fun _ => 0) qoiFile).trans (by decide +kernel)⟩
  have hrun : (qoaDecode (fun i => qoaFile.getD i 0) 40).map
      (fun r => (r.samples, r.channels, r.out 19)) = some (20, 1, 32767) := by decide +kernel
  obtain ⟨r, hr, hvals⟩ := Option.map_eq_some_iff.mp hrun
  obtain ⟨hsamples, hrest⟩ := Prod.mk.inj hvals
  obtain ⟨hchannels, hout⟩ := Prod.mk.inj hrest
  exact ⟨r, hr, hsamples, hout, (hqoa _ _ r hr).values 19 (by rw [hsamples, hchannels]; decide)⟩

end JuampiOs.Audio.Qoa
