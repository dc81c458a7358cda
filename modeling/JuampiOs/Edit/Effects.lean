import JuampiOs.Edit.Invariant

/-!
# What a key does

Each key does one of five things (`Did`): it changes nothing that matters here, it takes a
snapshot and then edits, marking the document as changed if it changed it, it takes a snapshot
and clears lines without a mark (`dd` and `cc`), it undoes, or it saves. In insert mode it edits
only (`handleInsert_edited`). What the dirty flag, the disk and the undo ring go through is
derived from this.
-/

namespace JuampiOs.Edit

open Lib

/-- `undo`, `undo_head` and `undo_count`. -/
def Editor.ring (e : Editor) : (Nat → Slot) × Nat × Int := (e.undo, e.undoHead, e.undoCount)

/-- Neither the disk nor the ring is touched. -/
structure Same (e e' : Editor) : Prop where
  filepath : e'.filepath = e.filepath
  disk : e'.disk = e.disk
  log : e'.log = e.log
  ring : e'.ring = e.ring

/-- Nor are the document and its mark. -/
structure Still (e e' : Editor) : Prop extends Same e e' where
  doc : e'.toDocument = e.toDocument
  dirty : e'.dirty = e.dirty

/-- Nor is the mode. -/
structure Calm (e e' : Editor) : Prop extends Still e e' where
  vmode : e'.vmode = e.vmode

/-- The document is marked if it has been touched. -/
structure Edited (e e' : Editor) : Prop extends Same e e' where
  marked : e'.dirty = true ∨ e'.toDocument = e.toDocument ∧ e'.dirty = e.dirty

variable {e e' e'' : Editor} {w : Answer}

theorem Same.trans (h : Same e e') (h' : Same e' e'') : Same e e'' :=
  ⟨h'.filepath.trans h.filepath, h'.disk.trans h.disk, h'.log.trans h.log, h'.ring.trans h.ring⟩

/-- The fields that matter, at once. -/
theorem Still.of_eq (h : (e'.filepath, e'.disk, e'.log, e'.ring, e'.toDocument, e'.dirty) =
    (e.filepath, e.disk, e.log, e.ring, e.toDocument, e.dirty)) : Still e e' := by
  simp only [Prod.mk.injEq] at h
  obtain ⟨hpath, hdisk, hlog, hring, hdoc, hdirty⟩ := h
  exact ⟨⟨hpath, hdisk, hlog, hring⟩, hdoc, hdirty⟩

theorem Still.refl (e : Editor) : Still e e := .of_eq rfl

theorem Still.trans (h : Still e e') (h' : Still e' e'') : Still e e'' :=
  ⟨h.toSame.trans h'.toSame, h'.doc.trans h.doc, h'.dirty.trans h.dirty⟩

theorem Calm.refl (e : Editor) : Calm e e := ⟨.refl e, rfl⟩

theorem Calm.trans (h : Calm e e') (h' : Calm e' e'') : Calm e e'' :=
  ⟨h.toStill.trans h'.toStill, h'.vmode.trans h.vmode⟩

theorem Still.edited (h : Still e e') : Edited e e' := ⟨h.toSame, .inr ⟨h.doc, h.dirty⟩⟩

theorem Edited.refl (e : Editor) : Edited e e := (Still.refl e).edited

theorem Edited.trans (h : Edited e e') (h' : Edited e' e'') : Edited e e'' := by
  refine ⟨h.toSame.trans h'.toSame, ?_⟩
  rcases h'.marked with hdirty | ⟨hdoc, hdirty⟩
  · exact .inl hdirty
  · rw [hdoc, hdirty]
    exact h.marked

theorem Edited.mode (h : Edited e e') (m : Mode) : Edited e { e' with vmode := m } :=
  ⟨⟨h.filepath, h.disk, h.log, h.ring⟩, h.marked⟩

theorem Still.text (h : Still e e') : e'.text = e.text := congrArg Document.text h.doc

/-! ## Motions and edits -/

section Functions

variable (e)

theorem setStatus_calm (msg : String) : Calm e (setStatus e msg) := ⟨.of_eq rfl, rfl⟩

theorem clampCx_calm : Calm e (clampCx e) := by
  unfold clampCx
  split
  · exact ⟨.of_eq rfl, rfl⟩
  · exact .refl e

theorem moveLine_calm (cy : Nat) : Calm e (clampCx { e with cy := cy }) := by
  have hcursor : Calm e { e with cy := cy } := ⟨.of_eq rfl, rfl⟩
  exact hcursor.trans (clampCx_calm _)

theorem insertChar_edited (ch : UInt8) : Edited e (insertChar e ch) := by
  unfold insertChar
  split
  · exact .refl e
  · exact ⟨⟨rfl, rfl, rfl, rfl⟩, .inl rfl⟩

theorem insertNewline_edited : Edited e (insertNewline e) := by
  unfold insertNewline
  split
  · exact .refl e
  · exact ⟨⟨rfl, rfl, rfl, rfl⟩, .inl rfl⟩

theorem doBackspace_edited : Edited e (doBackspace e) := by
  unfold doBackspace
  split
  · exact ⟨⟨rfl, rfl, rfl, rfl⟩, .inl rfl⟩
  · split
    · exact ⟨⟨rfl, rfl, rfl, rfl⟩, .inl rfl⟩
    · exact .refl e

theorem doDelete_edited : Edited e (doDelete e) := by
  unfold doDelete
  split
  · exact ⟨⟨rfl, rfl, rfl, rfl⟩, .inl rfl⟩
  · split
    · exact ⟨⟨rfl, rfl, rfl, rfl⟩, .inl rfl⟩
    · exact .refl e

theorem vimW_calm : Calm e (vimW e) := ⟨.of_eq rfl, rfl⟩

theorem vimB_calm : Calm e (vimB e) := by
  unfold vimB
  split
  · split
    · exact .refl e
    · exact ⟨.of_eq rfl, rfl⟩
  · exact ⟨.of_eq rfl, rfl⟩

theorem vimE_calm : Calm e (vimE e) := ⟨.of_eq rfl, rfl⟩

theorem iterate_calm {f : Editor → Editor} (hf : ∀ e, Calm e (f e)) (n : Nat) (e : Editor) :
    Calm e (f^[n] e) :=
  Function.Iterate.rec (Calm e) (.refl e) (fun _ h => h.trans (hf _)) n

theorem delChar_edited : Edited e (delChar e) := by
  unfold delChar
  split
  · exact .refl e
  · exact ⟨⟨rfl, rfl, rfl, rfl⟩, .inl rfl⟩

theorem iterate_edited {f : Editor → Editor} (hf : ∀ e, Edited e (f e)) (n : Nat) (e : Editor) :
    Edited e (f^[n] e) :=
  Function.Iterate.rec (Edited e) (.refl e) (fun _ h => h.trans (hf _)) n

theorem delWord_edited : Edited e (delWord e) := ⟨⟨rfl, rfl, rfl, rfl⟩, .inl rfl⟩

theorem vimJoin_edited : Edited e (vimJoin e) := by
  unfold vimJoin
  split
  · exact .refl e
  · exact ⟨⟨rfl, rfl, rfl, rfl⟩, .inl rfl⟩

theorem yankLines_calm (row count : Nat) : Calm e (yankLines e row count) := by
  unfold yankLines
  dsimp only
  split <;> exact ⟨.of_eq rfl, rfl⟩

theorem pasteLines_edited (below : Bool) : Edited e (pasteLines e below) := by
  unfold pasteLines
  split
  · exact .refl e
  · exact ⟨⟨rfl, rfl, rfl, rfl⟩, .inl rfl⟩

theorem doSearch_calm (forward : Bool) : Calm e (doSearch e forward) := by
  unfold doSearch
  split
  · exact .refl e
  · dsimp only
    split
    · exact ⟨.of_eq rfl, rfl⟩
    · exact setStatus_calm _ _

end Functions

/-! ## Keys -/

/-- What a key does outside insert mode; `c` says that it is `dd` or `cc`. -/
inductive Did (c : Prop) (w : Answer) (e e' : Editor) : Prop where
  | still (h : Still e e') (hmode : e'.vmode ≠ .insert)
  /-- with a mark, or without one -/
  | pushed (m : Editor) (hm : Still e m) (h : Same (pushUndo m) e')
      (hmark : Edited (pushUndo m) e' ∨ c ∧ e'.dirty = e.dirty)
  | undone (m : Editor) (hm : Still e m) (h : Still (doUndo m) e') (hmode : e'.vmode ≠ .insert)
  | saved (m : Editor) (hm : Still e m) (h : Still (saveFile w m).2 e') (hmode : e'.vmode ≠ .insert)

variable {c : Prop}

theorem Did.after {c' : Prop} (h : Still e e') (hc : c' → c)
    (hdid : Did c' w e' e'') : Did c w e e'' := by
  cases hdid with
  | still hs hmode => exact .still (h.trans hs) hmode
  | pushed m hm hs hmark =>
    exact .pushed m (h.trans hm) hs (hmark.imp_right fun hm => ⟨hc hm.1, hm.2.trans h.dirty⟩)
  | undone m hm hs hmode => exact .undone m (h.trans hm) hs hmode
  | saved m hm hs hmode => exact .saved m (h.trans hm) hs hmode

theorem saveFile_vmode (w : Answer) (e : Editor) : (saveFile w e).2.vmode = e.vmode := by
  unfold saveFile
  dsimp only
  split
  · rfl
  · split <;> rfl

theorem doUndo_vmode (e : Editor) : (doUndo e).vmode = e.vmode := by
  unfold doUndo
  split
  · rfl
  · exact (clampCx_calm _).vmode

theorem Edited.did (h : Edited (pushUndo e) e') : Did c w e e' :=
  .pushed e (Still.refl e) h.toSame (.inl h)

theorem deleteCommand_same (e : Editor) (cnt : Nat) :
    Same (pushUndo e) (deleteCommand e cnt) ∧ (deleteCommand e cnt).dirty = (pushUndo e).dirty := by
  have hyank := yankLines_calm (pushUndo e) e.cy cnt
  unfold deleteCommand
  dsimp only
  generalize yankLines (pushUndo e) e.cy cnt = m at hyank ⊢
  split
  · have hclamp := clampCx_calm { m with toDocument := m.setRow 0 ((m.rows 0).cut 0), cx := 0 }
    have hsame : Same m _ := ⟨hclamp.filepath, hclamp.disk, hclamp.log, hclamp.ring⟩
    exact ⟨hyank.toSame.trans hsame, hclamp.dirty.trans hyank.dirty⟩
  have hclamp := clampCx_calm { m with
    toDocument := deleteLines m.toDocument m.cy cnt
    cy := if (deleteLines m.toDocument m.cy cnt).nlines ≤ m.cy then
      (deleteLines m.toDocument m.cy cnt).nlines - 1 else m.cy }
  have hsame : Same m _ := ⟨hclamp.filepath, hclamp.disk, hclamp.log, hclamp.ring⟩
  exact ⟨hyank.toSame.trans hsame, hclamp.dirty.trans hyank.dirty⟩

section

variable (hnormal : e.vmode = .normal)
include hnormal

theorem Calm.did (h : Calm e e') : Did c w e e' := by
  refine .still h.toStill ?_
  rw [h.vmode, hnormal]
  decide

theorem did_saved (h : Calm (saveFile w e).2 e') : Did c w e e' := by
  refine .saved e (Still.refl e) h.toStill ?_
  rw [h.vmode, saveFile_vmode, hnormal]
  decide

theorem handleCommand_did (cnt : Nat) (cmd : Command) :
    Did False w e (handleCommand w e cnt cmd).2 := by
  have hnot : e.vmode ≠ .insert := by
    rw [hnormal]
    decide
  have hcursor : ∀ cy : Nat, Did False w e (clampCx { e with cy := cy }) := fun cy =>
    (moveLine_calm e cy).did hnormal
  have hsaved : ∀ e', Calm (saveFile w e).2 e' → Did False w e e' := fun _ => did_saved hnormal
  cases cmd with
  | left | right | home | firstNonblank | endOfLine | operator => exact .still (.of_eq rfl) hnot
  | down | up | goto | pageUp | pageDown => exact hcursor _
  | word => exact (iterate_calm vimW_calm cnt e).did hnormal
  | back => exact (iterate_calm vimB_calm cnt e).did hnormal
  | wordEnd => exact (iterate_calm vimE_calm cnt e).did hnormal
  | insert | append | insertHome | appendEnd => exact Edited.did (Still.edited (.of_eq rfl))
  | openBelow =>
    rw [handleCommand]
    refine Edited.did ?_
    generalize pushUndo e = u
    have hcursor : Still u { u with cx := u.line.len } := .of_eq rfl
    have hopened := hcursor.edited.trans (insertNewline_edited _)
    exact hopened.mode _
  | openAbove =>
    rw [handleCommand]
    refine Edited.did ?_
    generalize pushUndo e = u
    have hcursor : Still u { u with cx := 0 } := .of_eq rfl
    have hopened := hcursor.edited.trans (insertNewline_edited _)
    generalize insertNewline { u with cx := 0 } = v at hopened ⊢
    exact ⟨⟨hopened.filepath, hopened.disk, hopened.log, hopened.ring⟩, hopened.marked⟩
  | deleteChar =>
    exact ((iterate_edited delChar_edited cnt (pushUndo e)).trans (clampCx_calm _).toStill.edited).did
  | deleteEnd | changeEnd => exact Edited.did ⟨⟨rfl, rfl, rfl, rfl⟩, .inl rfl⟩
  | join => exact (vimJoin_edited _).did
  | pasteBelow | pasteAbove => exact (pasteLines_edited _ _).did
  | undo =>
    exact .undone e (Still.refl e) (Still.refl _) (by rw [handleCommand, doUndo_vmode]; exact hnot)
  | next => exact (doSearch_calm e true).did hnormal
  | previous => exact (doSearch_calm e false).did hnormal
  | commandLine => exact .still (.of_eq rfl) (show Mode.command ≠ .insert by decide)
  | searchLine => exact .still (.of_eq rfl) (show Mode.search ≠ .insert by decide)
  | save => exact hsaved _ (setStatus_calm _ _)
  | saveRun =>
    rw [handleCommand]
    dsimp only
    split
    · exact hsaved _ (.refl _)
    · exact hsaved _ (setStatus_calm _ _)
  | quit =>
    rw [handleCommand]
    split
    · exact (setStatus_calm e _).did hnormal
    · exact .still (Still.refl e) hnot
  | other => exact .still (Still.refl e) hnot

theorem handlePending_did (cnt k : Nat) (op : Op) :
    Did (op = .d ∧ k = 'd'.toNat ∨ op = .c ∧ k = 'c'.toNat) w e (handlePending e cnt k op) := by
  have hdirty := (pushUndo_pushed e).dirty
  have hrefl : ∀ c, Did c w e e := fun c => (Calm.refl e).did hnormal
  cases op with
  | r =>
    rw [handlePending]
    split
    · exact Edited.did ⟨⟨rfl, rfl, rfl, rfl⟩, .inl rfl⟩
    · exact hrefl _
  | g =>
    rw [handlePending]
    split
    · exact (moveLine_calm e 0).did hnormal
    · exact hrefl _
  | d =>
    rw [handlePending]
    split
    · rename_i hk
      obtain ⟨hsame, hd⟩ := deleteCommand_same e cnt
      exact .pushed e (Still.refl e) hsame (.inr ⟨.inl ⟨rfl, hk⟩, hd.trans hdirty⟩)
    · split
      · exact (delWord_edited _).did
      · exact hrefl _
  | c =>
    rw [handlePending]
    split
    · rename_i hk
      exact .pushed e (Still.refl e) ⟨rfl, rfl, rfl, rfl⟩ (.inr ⟨.inr ⟨rfl, hk⟩, hdirty⟩)
    · split
      · exact ((delWord_edited (pushUndo e)).mode _).did
      · exact hrefl _
  | y =>
    rw [handlePending]
    split
    · exact ((yankLines_calm e e.cy cnt).trans (setStatus_calm _ _)).did hnormal
    · exact hrefl _

/-- The key is the second one of `dd` or `cc`. -/
def ClearKey (e : Editor) (k : Nat) : Prop :=
  e.vmode = .normal ∧
    (e.vpending = some .d ∧ k = 'd'.toNat ∨ e.vpending = some .c ∧ k = 'c'.toNat)

theorem handleNormal_did (k : Nat) :
    Did (ClearKey e k) w e (handleNormal w e k).2 := by
  unfold handleNormal
  split
  · exact Calm.did hnormal ⟨.of_eq rfl, rfl⟩
  dsimp only
  split
  · rename_i op hop
    have hview : Still e { e with vpending := none, vcount := 0 } := .of_eq rfl
    refine Did.after hview ?_ (handlePending_did (by exact hnormal) _ _ _)
    rintro (⟨rfl, hk⟩ | ⟨rfl, hk⟩)
    · exact ⟨hnormal, .inl ⟨hop, hk⟩⟩
    · exact ⟨hnormal, .inr ⟨hop, hk⟩⟩
  · have hview : Still e { e with vcount := 0 } := .of_eq rfl
    exact Did.after hview False.elim (handleCommand_did (by exact hnormal) _ _)

theorem runCommand_did : Did c w e (runCommand w e).2 := by
  unfold runCommand
  dsimp only
  split
  · split
    · exact (moveLine_calm e (number e.vcmd - 1)).did hnormal
    · exact (Calm.refl e).did hnormal
  -- with or without a save, and with or without a message
  have hlast : ∀ e', Calm (if wantsWrite e.vcmd then save w e else e) e' → Did c w e e' := by
    intro e' hcalm
    split at hcalm
    · exact did_saved hnormal ((setStatus_calm _ _).trans hcalm)
    · exact hcalm.did hnormal
  generalize (if wantsWrite e.vcmd then save w e else e) = m at hlast ⊢
  split
  · exact hlast _ (.refl _)
  split <;> split
  · exact hlast _ (setStatus_calm _ _)
  · exact hlast _ (.refl _)
  · exact hlast _ (setStatus_calm _ _)
  · exact hlast _ (.refl _)

end

theorem handleLineMode_did (hline : e.vmode = .command ∨ e.vmode = .search) (k : Nat) :
    Did c w e (handleLineMode w e k).2 := by
  have hnot : e.vmode ≠ .insert := by
    rcases hline with h | h <;> rw [h] <;> decide
  unfold handleLineMode
  split
  · exact .still (.of_eq rfl) (fun h => nomatch h)
  split
  · split
    · have hview : Still e { e with vmode := .normal, vsearch := e.vcmd } := .of_eq rfl
      refine .still (hview.trans (doSearch_calm _ true).toStill) ?_
      rw [(doSearch_calm _ true).vmode]
      exact fun h => nomatch h
    · have hview : Still e { e with vmode := .normal } := .of_eq rfl
      exact Did.after hview id (runCommand_did rfl)
  split
  · split
    · exact .still (.of_eq rfl) hnot
    · exact .still (.of_eq rfl) (fun h => nomatch h)
  split
  · exact .still (.of_eq rfl) hnot
  · exact .still (Still.refl e) hnot

theorem handleEscape_still (e : Editor) : Still e (handleEscape e) := by
  unfold handleEscape
  split <;> exact .of_eq rfl

theorem handleInsert_edited (e : Editor) (k : Nat) : Edited e (handleInsert e k) := by
  unfold handleInsert
  split
  · exact insertNewline_edited e
  split
  · exact doBackspace_edited e
  split
  · exact doDelete_edited e
  split
  · exact Still.edited (.of_eq rfl)
  split
  · exact Still.edited (.of_eq rfl)
  split
  · split
    · exact (moveLine_calm e (e.cy - 1)).toStill.edited
    · exact .refl e
  split
  · split
    · exact (moveLine_calm e (e.cy + 1)).toStill.edited
    · exact .refl e
  split
  · exact Still.edited (.of_eq rfl)
  split
  · exact Still.edited (.of_eq rfl)
  split
  · exact insertChar_edited e _
  · exact .refl e

/-- **What a key does**: in insert mode, and in the others. -/
theorem vimKeyLogical_did (w : Answer) (e : Editor) (k : Nat) :
    e.vmode = .insert ∧ Edited e (vimKeyLogical w e k).2 ∨
    e.vmode ≠ .insert ∧ Did (ClearKey e k) w e (vimKeyLogical w e k).2 := by
  by_cases hk : k = 27
  · rw [hk, vimKeyLogical_escape]
    have hstill := handleEscape_still e
    by_cases hmode : e.vmode = .insert
    · exact .inl ⟨hmode, hstill.edited⟩
    · refine .inr ⟨hmode, .still hstill ?_⟩
      rw [(handleEscape_frame e).2.2.2]
      decide
  · rcases mode_cases e with hmode | hmode | hmode
    · rw [vimKeyLogical_insert hk hmode]
      exact .inl ⟨hmode, handleInsert_edited e k⟩
    · rw [vimKeyLogical_line hk hmode]
      refine .inr ⟨?_, handleLineMode_did hmode k⟩
      rcases hmode with h | h <;> rw [h] <;> decide
    · rw [vimKeyLogical_normal hk hmode]
      have hview : Still e { e with statusMsg := none } := .of_eq rfl
      refine .inr ⟨by rw [hmode]; decide, ?_⟩
      have hdid := handleNormal_did (w := w) (e := { e with statusMsg := none }) hmode k
      exact Did.after hview id hdid

end JuampiOs.Edit
