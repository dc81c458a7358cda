import JuampiOs.Gfx.Flip

/-!
# Modal loops

`ui_run` and the windowed `ui_edit` of `ui.c`, as far as they use the screen: a loop takes a
snapshot when it is entered; every frame calls the build callback, which may open further loops
and returns when they have, puts the snapshot back, paints the windows and the cursor over it
and flips; at the end the loop puts the snapshot back once more and frees it. What a frame
paints is any change of the back buffer; a loop has at least one frame, and whether it has
another one is up to the user.

There is one snapshot for all loops: a loop that is opened from inside another one overwrites
it and frees it. So every loop repaints and restores the image it was entered with, whatever is
painted, if and only if no loop is opened from inside another (`modal_restores_iff`).

Left out: microui, the input, and the editor without a screen.
-/

namespace JuampiOs.Ui

open Lib Gfx List Option

mutual

/-- A loop and what becomes of it. -/
inductive Modal where
  | uiRun (frames : Frames)
  | uiEdit (frames : Frames)

/-- The frames of a loop. -/
inductive Frames where
  | last (f : Frame)
  | cons (f : Frame) (rest : Frames)

/-- The loops the build callback opens, one after the other, and the number of what is painted. -/
inductive Frame where
  | mk (opened : Modals) (painting : Nat)

inductive Modals where
  | nil
  | cons (m : Modal) (rest : Modals)

end

inductive Event where
  /-- a frame of a loop that was entered with the image `entry` is painted over `under` -/
  | painted (entry under : Pixels)
  /-- the loop returns with the back buffer -/
  | returned (entry back : Pixels)

/-- The image that drawing goes to. -/
def backOf (s : Screen) : Pixels := s.back.getD fun _ => 0

/-- `ui_run` and the loop of `ui_edit`, around their frames. -/
def modalLoop (frames : Pixels → Screen → Screen × List Event) (s : Screen) :
    Screen × List Event :=
  if s.fb.isNone then (s, [])
  else
    let wasBuffered := s.back.isSome
    let s := if wasBuffered then s else (gfxBuffer s true).1
    let entry := backOf s
    let r := frames entry (gfxSnapshot s)
    let s := gfxFlip (gfxRestore r.1)
    let back := backOf s
    let s := if wasBuffered then s else (gfxBuffer s false).1
    (gfxSnapshotFree s, r.2 ++ [.returned entry back])

/-- Paint the windows and the cursor. -/
def render (paint : Pixels → Pixels) (s : Screen) : Screen := { s with back := s.back.map paint }

variable (paint : Nat → Pixels → Pixels)

mutual

/-- A loop, given what every painting does. -/
def runModal : Modal → Screen → Screen × List Event
  | .uiRun frames, s => modalLoop (fun entry s => runFrames entry frames s) s
  | .uiEdit frames, s => modalLoop (fun entry s => runFrames entry frames s) s

def runFrames (entry : Pixels) : Frames → Screen → Screen × List Event
  | .last f, s => runFrame entry f s
  | .cons f rest, s =>
    let first := runFrame entry f s
    let others := runFrames entry rest first.1
    (others.1, first.2 ++ others.2)

/-- One round of a loop. -/
def runFrame (entry : Pixels) : Frame → Screen → Screen × List Event
  | .mk opened painting, s =>
    let built := runModals opened s
    let s := gfxRestore built.1
    let under := backOf s
    (gfxFlip (render (paint painting) s), built.2 ++ [.painted entry under])

def runModals : Modals → Screen → Screen × List Event
  | .nil, s => (s, [])
  | .cons m rest, s =>
    let first := runModal m s
    let others := runModals rest first.1
    (others.1, first.2 ++ others.2)

end

/-! ## What the loops should do -/

/-- The image is the one the loop was entered with. -/
def Restored (m : Mode) : Event → Prop
  | .painted entry under => ∀ i < m.width * m.height, under i = entry i
  | .returned entry back => ∀ i < m.width * m.height, back i = entry i

def Frame.opens : Frame → Bool
  | .mk .nil _ => false
  | .mk (.cons ..) _ => true

/-- None of the frames opens a loop. -/
def Frames.Flat : Frames → Prop
  | .last f => f.opens = false
  | .cons f rest => f.opens = false ∧ rest.Flat

def Modal.frames : Modal → Frames
  | .uiRun frames => frames
  | .uiEdit frames => frames

/-- No loop is opened from inside the loop. -/
def Modal.Flat (m : Modal) : Prop := m.frames.Flat

theorem runModal_eq (m : Modal) (s : Screen) :
    runModal paint m s = modalLoop (fun entry s => runFrames paint entry m.frames s) s := by
  cases m <;> simp only [runModal, Modal.frames]

/-! ## The screen in a loop -/

/-- Buffering is on, in the mode `m`. -/
structure Buffered (m : Mode) (s : Screen) : Prop where
  mode : s.mode = m
  fb : s.fb.isSome = true
  back : s.back.isSome = true

variable {m : Mode} {s : Screen}

theorem gfxFlipFull_kept (s : Screen) : (gfxFlipFull s).mode = s.mode ∧
    (gfxFlipFull s).fb.isSome = s.fb.isSome ∧ (gfxFlipFull s).back = s.back ∧
      (gfxFlipFull s).snap = s.snap := by
  unfold gfxFlipFull
  split
  · rename_i hfb _
    exact ⟨rfl, by rw [hfb]; rfl, rfl, rfl⟩
  · exact ⟨rfl, rfl, rfl, rfl⟩

theorem gfxFlip_kept (s : Screen) : (gfxFlip s).mode = s.mode ∧
    (gfxFlip s).fb.isSome = s.fb.isSome ∧ (gfxFlip s).back = s.back ∧
      (gfxFlip s).snap = s.snap := by
  unfold gfxFlip
  split
  · rename_i hfb _ _
    exact ⟨rfl, by rw [hfb]; rfl, rfl, rfl⟩
  · exact gfxFlipFull_kept s
  · exact ⟨rfl, rfl, rfl, rfl⟩

theorem Buffered.flip (h : Buffered m s) : Buffered m (gfxFlip s) := by
  obtain ⟨hmode, hfb, hback, _⟩ := gfxFlip_kept s
  exact ⟨hmode.trans h.mode, hfb.trans h.fb, by rw [hback]; exact h.back⟩

theorem Buffered.render (h : Buffered m s) (paint : Pixels → Pixels) :
    Buffered m (render paint s) :=
  ⟨h.mode, h.fb, by simp [Ui.render, h.back]⟩

theorem copyRows_packed (src dst : Pixels) {i : Nat} (hi : i < m.width * m.height) :
    copyRows m.width 0 m.width (fun y => offset src (y * m.width)) m.rows dst i = src i := by
  have hw : 0 < m.width := Nat.pos_of_mul_pos_right (Nat.zero_lt_of_lt hi)
  have hrow : i / m.width < m.height := by
    rw [Nat.div_lt_iff_lt_mul hw, Nat.mul_comm]
    exact hi
  have hcol := Nat.mod_lt i hw
  rw [copyRows_apply (by omega), if_pos ⟨List.mem_range.mpr hrow, Nat.zero_le _, by omega⟩]
  unfold offset
  rw [Nat.sub_zero, Nat.mul_comm, Nat.div_add_mod]

/-- The snapshot holds the image. -/
def Snapped (m : Mode) (image : Pixels) (s : Screen) : Prop :=
  ∃ snap, s.snap = some snap ∧ ∀ i < m.width * m.height, snap i = image i

theorem gfxSnapshot_spec (h : Buffered m s) :
    Buffered m (gfxSnapshot s) ∧ Snapped m (backOf s) (gfxSnapshot s) := by
  obtain ⟨fb, hfb⟩ := isSome_iff_exists.mp h.fb
  obtain ⟨back, hback⟩ := isSome_iff_exists.mp h.back
  simp only [gfxSnapshot, hfb]
  refine ⟨⟨h.mode, by simp, h.back⟩, _, rfl, ?_⟩
  intro i hi
  rw [show rowOf s fb = fun y => offset back (y * s.mode.width) by
    funext y
    simp only [rowOf, hback], h.mode, copyRows_packed _ _ hi]
  simp [backOf, hback]

theorem Buffered.restore (h : Buffered m s) : Buffered m (gfxRestore s) ∧
    (gfxRestore s).snap = s.snap := by
  obtain ⟨back, hback⟩ := isSome_iff_exists.mp h.back
  unfold gfxRestore
  split
  · rw [hback]
    exact ⟨⟨h.mode, h.fb, rfl⟩, rfl⟩
  · exact ⟨h, rfl⟩

theorem gfxRestore_spec (h : Buffered m s) {image : Pixels} (hsnap : Snapped m image s) :
    ∀ i < m.width * m.height, backOf (gfxRestore s) i = image i := by
  obtain ⟨fb, hfb⟩ := isSome_iff_exists.mp h.fb
  obtain ⟨back, hback⟩ := isSome_iff_exists.mp h.back
  obtain ⟨snap, hs, himage⟩ := hsnap
  intro i hi
  simp only [gfxRestore, hfb, hs, hback, backOf, getD_some, h.mode]
  rw [copyRows_packed _ _ hi, himage i hi]

theorem gfxRestore_none (h : s.snap = none) : gfxRestore s = s := by
  unfold gfxRestore
  rw [h]
  split
  · rename_i hc
    cases hc
  · rfl

/-! ## A loop that opens none -/

variable {entry : Pixels}

theorem runFrame_flat {f : Frame}
    (hf : f.opens = false) (h : Buffered m s) (hsnap : Snapped m entry s) :
    Buffered m (runFrame paint entry f s).1 ∧ Snapped m entry (runFrame paint entry f s).1 ∧
      ∀ e ∈ (runFrame paint entry f s).2, Restored m e := by
  match f, hf with
  | .mk .nil painting, _ =>
    obtain ⟨hrestored, hkept⟩ := h.restore
    have hrendered := hrestored.render (paint painting)
    have hsame : (gfxFlip (render (paint painting) (gfxRestore s))).snap = s.snap :=
      (gfxFlip_kept _).2.2.2.trans hkept
    simp only [runFrame, runModals]
    refine ⟨hrendered.flip, ?_, ?_⟩
    · unfold Snapped
      rw [hsame]
      exact hsnap
    · intro e he
      obtain rfl := mem_singleton.mp he
      exact gfxRestore_spec h hsnap

theorem runFrames_flat (fs : Frames)
    (hfs : fs.Flat) {s : Screen} (h : Buffered m s) (hsnap : Snapped m entry s) :
    Buffered m (runFrames paint entry fs s).1 ∧ Snapped m entry (runFrames paint entry fs s).1 ∧
      ∀ e ∈ (runFrames paint entry fs s).2, Restored m e := by
  match fs, hfs with
  | .last f, hf => exact runFrame_flat paint hf h hsnap
  | .cons f rest, hf =>
    obtain ⟨hb, hs, hev⟩ := runFrame_flat paint hf.1 h hsnap
    obtain ⟨hb', hs', hev'⟩ := runFrames_flat rest hf.2 hb hs
    refine ⟨hb', hs', ?_⟩
    intro e he
    rcases mem_append.mp he with he | he
    · exact hev e he
    · exact hev' e he

theorem modalLoop_buffered (h : Buffered m s) (frames : Pixels → Screen → Screen × List Event) :
    modalLoop frames s =
      (gfxSnapshotFree (gfxFlip (gfxRestore (frames (backOf s) (gfxSnapshot s)).1)),
        (frames (backOf s) (gfxSnapshot s)).2 ++
          [.returned (backOf s)
            (backOf (gfxFlip (gfxRestore (frames (backOf s) (gfxSnapshot s)).1)))]) := by
  have hfb : s.fb.isNone = false := by simp [← not_isSome, h.fb]
  simp [modalLoop, hfb, h.back]

theorem backOf_flip (s : Screen) : backOf (gfxFlip s) = backOf s := by
  unfold backOf
  rw [(gfxFlip_kept s).2.2.1]

theorem restored_of_flat {loop : Modal} (hflat : loop.Flat)
    (h : Buffered m s) :
    ∀ e ∈ (runModal paint loop s).2, Restored m e := by
  obtain ⟨hb, hs⟩ := gfxSnapshot_spec h
  obtain ⟨hb', hs', hev⟩ := runFrames_flat paint loop.frames hflat hb hs
  rw [runModal_eq, modalLoop_buffered h]
  intro e he
  rcases mem_append.mp he with he | he
  · exact hev e he
  · obtain rfl := mem_singleton.mp he
    intro i hi
    rw [backOf_flip]
    exact gfxRestore_spec hb' hs' i hi

/-! ## A loop that opens another -/

mutual

theorem runModal_kept (loop : Modal) {s : Screen} (h : Buffered m s) :
    Buffered m (runModal paint loop s).1 ∧ (runModal paint loop s).1.snap = none := by
  rw [runModal_eq, modalLoop_buffered h]
  have hframes : Buffered m (runFrames paint (backOf s) loop.frames (gfxSnapshot s)).1 := by
    cases loop with
    | uiRun frames | uiEdit frames => exact runFrames_kept _ frames (gfxSnapshot_spec h).1
  have hend := hframes.restore.1.flip
  exact ⟨⟨hend.mode, hend.fb, hend.back⟩, rfl⟩

theorem runFrames_kept (entry : Pixels) (fs : Frames) {s : Screen}
    (h : Buffered m s) : Buffered m (runFrames paint entry fs s).1 := by
  match fs with
  | .last f => exact runFrame_kept entry f h
  | .cons f rest => exact runFrames_kept entry rest (runFrame_kept entry f h)

theorem runFrame_kept (entry : Pixels) (f : Frame) {s : Screen}
    (h : Buffered m s) : Buffered m (runFrame paint entry f s).1 := by
  match f with
  | .mk opened painting => exact ((runModals_kept opened h).1.restore.1.render _).flip

theorem runModals_kept (ms : Modals) {s : Screen} (h : Buffered m s) :
    Buffered m (runModals paint ms s).1 ∧
      ((runModals paint ms s).1.snap = none ∨ ms = .nil ∧ runModals paint ms s = (s, [])) := by
  match ms with
  | .nil => exact ⟨by simpa only [runModals] using h, .inr ⟨rfl, by simp only [runModals]⟩⟩
  | .cons loop rest =>
    obtain ⟨hb, hsnap⟩ := runModal_kept loop h
    obtain ⟨hb', hrest⟩ := runModals_kept rest hb
    simp only [runModals]
    refine ⟨hb', .inl ?_⟩
    rcases hrest with hnone | ⟨_, hnil⟩
    · exact hnone
    · rw [hnil]
      exact hsnap

end

section Flood

variable {color : UInt32}

/-- Every painting fills the image with one color. -/
def flood (color : UInt32) : Nat → Pixels → Pixels := fun _ _ _ => color

/-- The snapshot is gone and the image is the flood. -/
structure Flooded (m : Mode) (color : UInt32) (s : Screen) : Prop where
  buffered : Buffered m s
  snap : s.snap = none
  image : backOf s = fun _ => color

theorem runFrame_flooded {f : Frame} (h : Buffered m s)
    (hlost : s.snap = none ∨ f.opens = true) :
    Flooded m color (runFrame (flood color) entry f s).1 := by
  match f with
  | .mk opened painting =>
    obtain ⟨hb, hsnap⟩ := runModals_kept (flood color) opened h
    have hnone : (runModals (flood color) opened s).1.snap = none := by
      rcases hsnap with hnone | ⟨rfl, heq⟩
      · exact hnone
      · rcases hlost with hlost | hopens
        · rw [heq]
          exact hlost
        · cases hopens
    have hrendered := hb.render (flood color painting)
    simp only [runFrame, gfxRestore_none hnone]
    refine ⟨hrendered.flip, (gfxFlip_kept _).2.2.2.trans hnone, ?_⟩
    obtain ⟨back, hback⟩ := isSome_iff_exists.mp hb.back
    rw [backOf_flip]
    simp only [backOf, render, hback, map_some, getD_some]
    rfl

theorem runFrames_flooded (fs : Frames) {s : Screen} (h : Buffered m s)
    (hlost : s.snap = none ∨ ¬ fs.Flat) :
    Flooded m color (runFrames (flood color) entry fs s).1 := by
  match fs with
  | .last f => exact runFrame_flooded h (hlost.imp id fun hf => Bool.not_eq_false _ ▸ hf)
  | .cons f rest =>
    refine runFrames_flooded rest (runFrame_kept _ entry f h) ?_
    by_cases hopens : s.snap = none ∨ f.opens = true
    · exact .inl (runFrame_flooded h hopens).snap
    · rw [not_or, Bool.not_eq_true] at hopens
      rcases hlost with hnone | hflat
      · exact absurd hnone hopens.1
      · exact .inr fun hrest => hflat ⟨hopens.2, hrest⟩

end Flood

/-- **Modal loops restore the screen**, whatever they paint, if and only if none is opened from
inside another. -/
theorem modal_restores_iff (s : Screen) (hfb : s.fb.isSome = true) (hback : s.back.isSome = true)
    (loop : Modal) :
    (∀ paint, ∀ e ∈ (runModal paint loop s).2, Restored s.mode e) ↔
      loop.Flat ∨ s.mode.width * s.mode.height = 0 := by
  have h : Buffered s.mode s := ⟨rfl, hfb, hback⟩
  constructor
  · intro hall
    by_contra hnot
    rw [not_or] at hnot
    -- a flood of another color than the first pixel stays
    let color : UInt32 := backOf s 0 + 1
    have hflooded : Flooded s.mode color
        (runFrames (flood color) (backOf s) loop.frames (gfxSnapshot s)).1 :=
      runFrames_flooded loop.frames (gfxSnapshot_spec h).1 (.inr hnot.1)
    have hreturned := hall (flood color) (.returned (backOf s) (backOf (gfxFlip (gfxRestore
        (runFrames (flood color) (backOf s) loop.frames (gfxSnapshot s)).1)))) (by
          rw [runModal_eq, modalLoop_buffered h]
          exact mem_append_right _ (mem_singleton.mpr rfl))
    have hpixel := hreturned 0 (pos_of_ne_zero hnot.2)
    rw [backOf_flip, gfxRestore_none hflooded.snap, hflooded.image] at hpixel
    exact absurd hpixel (by simp [color])
  · rintro (hflat | hempty) paint
    · exact restored_of_flat paint hflat h
    · intro e _
      cases e <;> intro i hi <;> omega

/-- A black screen of one pixel. -/
def onePixel : Screen where
  mode := ⟨1, 1, 4, by decide⟩
  fb := some Buf.zero
  back := some fun _ => 0
  shadow := some fun _ => 0
  snap := none
  lastFlipTiles := 0

/-- A popup of two frames. -/
def popup : Modal := .uiRun (.cons (.mk .nil 0) (.last (.mk .nil 1)))

/-- The first pixel of the image a loop was entered with, and of the one it has. -/
def Event.firstPixels : Event → UInt32 × UInt32
  | .painted entry under => (entry 0, under 0)
  | .returned entry back => (entry 0, back 0)

/-- A popup puts the screen back. -/
theorem modal_restores_popup : ∃ entry back,
    .returned entry back ∈ (runModal (flood 0xFFFFFF) popup onePixel).2 ∧
      Restored onePixel.mode (.returned entry back) := by
  have hmem : ∃ entry back, .returned entry back ∈ (runModal (flood 0xFFFFFF) popup onePixel).2 :=
    ⟨_, _, by
      rw [runModal_eq, modalLoop_buffered ⟨rfl, rfl, rfl⟩]
      exact mem_append_right _ (mem_singleton.mpr rfl)⟩
  obtain ⟨entry, back, hmem⟩ := hmem
  exact ⟨entry, back, hmem, (modal_restores_iff onePixel rfl rfl popup).mpr (.inl ⟨rfl, rfl⟩)
    (flood 0xFFFFFF) _ hmem⟩

/-- A popup opened from the first of the two frames of another. -/
def nested : Modal := .uiRun (.cons (.mk (.cons popup .nil) 0) (.last (.mk .nil 1)))

/-- The outer loop paints its second frame over its first and returns with its windows on the
screen. -/
theorem nested_not_restored :
    (runModal (flood 0xFFFFFF) nested onePixel).2.map Event.firstPixels =
      [(0, 0), (0, 0), (0, 0), (0, 0), (0, 0xFFFFFF), (0, 0xFFFFFF)] ∧
    ∃ e ∈ (runModal (flood 0xFFFFFF) nested onePixel).2, ¬ Restored onePixel.mode e := by
  have hpixels : (runModal (flood 0xFFFFFF) nested onePixel).2.map Event.firstPixels =
      [(0, 0), (0, 0), (0, 0), (0, 0), (0, 0xFFFFFF), (0, 0xFFFFFF)] := by decide +kernel
  refine ⟨hpixels, ?_⟩
  have hlast : ((0, 0xFFFFFF) : UInt32 × UInt32) ∈
      (runModal (flood 0xFFFFFF) nested onePixel).2.map Event.firstPixels := by
    rw [hpixels]
    decide
  obtain ⟨e, he, hpix⟩ := mem_map.mp hlast
  refine ⟨e, he, fun hrestored => ?_⟩
  have hsame : e.firstPixels.2 = e.firstPixels.1 := by
    cases e with
    | painted | returned => exact hrestored 0 (by decide)
  rw [hpix] at hsame
  exact absurd hsame (by decide)

end JuampiOs.Ui
