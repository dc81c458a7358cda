import JuampiOs.Edit.Model

/-!
# The editor stays inside its arrays

`Bounds` is what every function of the editor relies on: one to `ED_MAX_LINES` lines, the cursor
on one of them, every line NUL-terminated within `ED_MAX_COLS`, the lengths of the other buffers
within theirs. It holds from `editor_open` on, whatever is typed, as long as no `p` pastes below
the last line of a full document (`editor_bounds`): `paste_lines` moves the cursor down to the
first line it pasted even if there was no room to paste any.

`Sane` is `Bounds` with what keeps it: the yank register holds whole lines without carriage
returns, and no operator is pending outside normal mode.
-/

namespace JuampiOs.Edit

open Lib List Document Row

/-! ## The invariant -/

/-- The buffers beside the document. -/
structure Kept (yank : List UInt8) (vcmd : Line) (keyCsi : List UInt8) (undoCount : Int)
    (vmode : Mode) (vpending : Option Op) : Prop where
  yank_plain : ∀ c ∈ yank, c ≠ cr
  yank_line : yank ≠ [] → lf ∈ yank
  vcmd : vcmd.length ≤ 127
  csi : keyCsi.length ≤ 7
  undo_nonneg : 0 ≤ undoCount
  undo_le : undoCount ≤ edUndoMax
  pending : vmode ≠ .normal → vpending = none

/-- Everything but the column of the cursor. It speaks of the fields alone, so it is the same of
editors that differ in others. -/
structure NearAt (d : Document) (cy : Nat) (yank : List UInt8) (vcmd : Line) (keyCsi : List UInt8)
    (undoCount : Int) (vmode : Mode) (vpending : Option Op) : Prop where
  valid : d.Valid
  cy : cy < d.nlines
  kept : Kept yank vcmd keyCsi undoCount vmode vpending

structure SaneAt (line : Row) (cx : Nat) (d : Document) (cy : Nat) (yank : List UInt8) (vcmd : Line)
    (keyCsi : List UInt8) (undoCount : Int) (vmode : Mode) (vpending : Option Op) : Prop extends
    NearAt d cy yank vcmd keyCsi undoCount vmode vpending where
  cx : cx ≤ line.len

variable {e : Editor} {w : Answer}

abbrev Near (e : Editor) : Prop :=
  NearAt e.toDocument e.cy e.yank e.vcmd e.keyCsi e.undoCount e.vmode e.vpending

abbrev Sane (e : Editor) : Prop :=
  SaneAt e.line e.cx e.toDocument e.cy e.yank e.vcmd e.keyCsi e.undoCount e.vmode e.vpending

theorem Sane.toNear (h : Sane e) : Near e := h.toNearAt

theorem Sane.row (h : Sane e) : e.line.Ok := h.valid.row _ h.cy

variable {r : Row} {i : Nat}

theorem Sane.edit (h : Sane e) (hr : r.Ok) (cx : Nat) (hcx : cx ≤ r.len) :
    Sane { e with toDocument := e.setRow e.cy r, cx := cx } := by
  refine ⟨⟨h.valid.setRow hr, h.cy, h.kept⟩, ?_⟩
  show cx ≤ ((e.setRow e.cy r).rows e.cy).len
  rw [setRow_self]
  exact hcx

theorem Sane.status (h : Sane e) (msg : String) : Sane (setStatus e msg) :=
  h

theorem clampCx_sane (h : Near e) : Sane (clampCx e) := by
  unfold clampCx
  split
  · exact ⟨⟨h.valid, h.cy, h.kept⟩, le_refl _⟩
  · rename_i hle
    exact ⟨h, Nat.le_of_not_lt hle⟩

/-! ## Opening and saving -/

theorem sane_editorOpen (disk : Disk) (path : List UInt8) : Sane (editorOpen disk path) := by
  have hvalid : (editorOpen disk path).toDocument.Valid := by
    show (loadFile (disk path)).Valid
    unfold loadFile
    split
    · exact blank_valid _
    · exact (bufferFromText_spec _ _).1
  refine ⟨⟨hvalid, hvalid.pos, ?_⟩, Nat.zero_le _⟩
  exact ⟨fun _ h => absurd h List.not_mem_nil, fun h => absurd rfl h, Nat.zero_le _, Nat.zero_le _,
    Int.le_refl _, Int.natCast_nonneg _, fun _ => rfl⟩

theorem saveFile_sane (h : Sane e) : Sane (saveFile w e).2 := by
  unfold saveFile
  dsimp only
  split
  · exact h
  · split <;> exact h

theorem save_sane (h : Sane e) : Sane (save w e) := (saveFile_sane h).status _

/-! ## Buffer edits -/

theorem insertChar_sane {ch : UInt8} (h : Sane e) (hch : Plain ch) : Sane (insertChar e ch) := by
  unfold insertChar
  split
  · exact h
  rename_i hroom
  have hlt := Nat.lt_of_not_le hroom
  have hcx := h.cx
  exact h.edit (h.row.insertAt hcx hlt hch) (e.cx + 1) (by show e.cx + 1 ≤ e.line.len + 1; omega)

theorem insertNewline_sane (h : Sane e) : Sane (insertNewline e) := by
  unfold insertNewline
  split
  · exact h
  · rename_i hroom
    have hlt := Nat.lt_of_not_le hroom
    exact ⟨⟨h.valid.splitLine hlt h.cy h.cx, Nat.succ_lt_succ h.cy, h.kept⟩, Nat.zero_le _⟩

variable {d : Document} {k : Nat}

theorem joinInto_len {dst src : Nat} : (d.rows dst).len ≤ ((d.joinInto dst src).rows dst).len := by
  show _ ≤ ((d.setRow dst _).rows dst).len
  rw [setRow_self]
  exact Nat.le_add_right _ _

theorem deleteLine_above {row : Nat} (h : i < row) : (d.deleteLine row).rows i = d.rows i := by
  show moveDown copy d.rows row (row + 1) (d.nlines - 1 - row) i = _
  rw [moveDown_apply _ (Nat.le_succ row), if_neg (by omega)]

theorem doBackspace_sane (h : Sane e) : Sane (doBackspace e) := by
  have hcx := h.cx
  have hcy := h.cy
  unfold doBackspace
  split
  · have hedit := h.edit (h.row.eraseAt (e.cx - 1)) (e.cx - 1)
      (by show e.cx - 1 ≤ e.line.len - 1; omega)
    exact hedit
  split
  · rename_i hup
    have hjoined : (e.joinInto (e.cy - 1) e.cy).Valid := h.valid.joinInto (by omega) hcy
    refine ⟨⟨hjoined.deleteLine ?_, ?_, h.kept⟩, ?_⟩
    · show 1 < e.nlines
      omega
    · show e.cy - 1 < e.nlines - 1
      omega
    · show (e.rows (e.cy - 1)).len ≤
        (((e.joinInto (e.cy - 1) e.cy).deleteLine e.cy).rows (e.cy - 1)).len
      rw [deleteLine_above (by omega)]
      exact joinInto_len
  · exact h

theorem doDelete_sane (h : Sane e) : Sane (doDelete e) := by
  have hcx := h.cx
  have hcy := h.cy
  unfold doDelete
  split
  · rename_i hin
    exact h.edit (h.row.eraseAt e.cx) e.cx (by show e.cx ≤ e.line.len - 1; omega)
  split
  · rename_i hmore
    have hjoined : (e.joinInto e.cy (e.cy + 1)).Valid := h.valid.joinInto hcy hmore
    refine ⟨⟨hjoined.deleteLine ?_, ?_, h.kept⟩, ?_⟩
    · show 1 < e.nlines
      omega
    · show e.cy < e.nlines - 1
      omega
    · show e.cx ≤ (((e.joinInto e.cy (e.cy + 1)).deleteLine (e.cy + 1)).rows e.cy).len
      rw [deleteLine_above (Nat.lt_succ_self _)]
      exact le_trans hcx joinInto_len
  · exact h

/-! ## Undo -/

/-- What a snapshot leaves alone, and what it records. -/
structure Pushed (e e' : Editor) : Prop where
  doc : e'.toDocument = e.toDocument
  cx : e'.cx = e.cx
  cy : e'.cy = e.cy
  dirty : e'.dirty = e.dirty
  yank : e'.yank = e.yank
  vpending : e'.vpending = e.vpending
  filepath : e'.filepath = e.filepath
  disk : e'.disk = e.disk
  log : e'.log = .snapshot e.text :: e.log

theorem pushUndo_pushed (e : Editor) : Pushed e (pushUndo e) := by
  unfold pushUndo
  dsimp only
  split
  · constructor <;> rfl
  · constructor <;> rfl

theorem pushUndo_sane (h : Sane e) : Sane (pushUndo e) := by
  unfold pushUndo
  dsimp only
  split
  · exact h
  have hnonneg := h.kept.undo_nonneg
  have hle := h.kept.undo_le
  refine ⟨⟨h.valid, h.cy, { h.kept with undo_nonneg := ?_, undo_le := ?_ }⟩, h.cx⟩
  · show 0 ≤ if e.undoCount < edUndoMax then e.undoCount + 1 else e.undoCount
    split <;> omega
  · show (if e.undoCount < edUndoMax then e.undoCount + 1 else e.undoCount) ≤ edUndoMax
    split <;> omega

theorem doUndo_sane (h : Sane e) : Sane (doUndo e) := by
  unfold doUndo
  split
  · exact h.status _
  rename_i hcount
  have hnonneg := h.kept.undo_nonneg
  have hle := h.kept.undo_le
  dsimp only
  generalize (e.undo _) = slot
  have hvalid := (bufferFromText_spec e.toDocument slot.text).1
  have hpos := hvalid.pos
  have hkept : Kept e.yank e.vcmd e.keyCsi (e.undoCount - 1) e.vmode e.vpending :=
    { h.kept with undo_nonneg := by omega, undo_le := by omega }
  show Sane (clampCx _)
  refine clampCx_sane ⟨hvalid, ?_, hkept⟩
  show (if (e.bufferFromText slot.text).nlines ≤ slot.cy then
    (e.bufferFromText slot.text).nlines - 1 else slot.cy) < (e.bufferFromText slot.text).nlines
  split <;> omega

/-! ## Motions -/

theorem skipSpace_le (h : i ≤ r.len) : i ≤ r.skipSpace i ∧ r.skipSpace i ≤ r.len := by
  have := scanUp_bounds (fun j => edIsspace (r.cells j)) (r.len - i) i
  unfold skipSpace
  omega

theorem skipWord_le (h : i ≤ r.len) : i ≤ r.skipWord i ∧ r.skipWord i ≤ r.len := by
  have := scanUp_bounds (fun j => sameWord (r.cells i) (r.cells j)) (r.len - i) i
  unfold skipWord
  omega

variable {cx : Nat}

theorem skipBlank_in {n cy : Nat} (hn : cy + n < d.nlines) (hcx : cx ≤ (d.rows cy).len) :
    (skipBlank d n cy cx).1 < d.nlines ∧
      (skipBlank d n cy cx).2 ≤ (d.rows (skipBlank d n cy cx).1).len := by
  induction n generalizing cy cx with
  | zero => exact ⟨hn, (skipSpace_le hcx).2⟩
  | succ n ih =>
    rw [skipBlank]
    split
    · exact ⟨by show cy < d.nlines; omega, (skipSpace_le hcx).2⟩
    · exact ih (by omega) (Nat.zero_le _)

theorem vimW_sane (h : Sane e) : Sane (vimW e) := by
  have hcy := h.cy
  unfold vimW
  dsimp only
  have hstart : (if e.cx < e.line.len ∧ edIsspace (e.line.cells e.cx) = false then
      e.line.skipWord e.cx else e.cx) ≤ (e.rows e.cy).len := by
    split
    · exact (skipWord_le h.cx).2
    · exact h.cx
  generalize (if e.cx < e.line.len ∧ edIsspace (e.line.cells e.cx) = false then
      e.line.skipWord e.cx else e.cx) = cx at hstart ⊢
  have hin := skipBlank_in (d := e.toDocument) (n := e.nlines - 1 - e.cy) (by omega) hstart
  generalize skipBlank e.toDocument _ e.cy cx = p at hin ⊢
  refine ⟨⟨h.valid, hin.1, h.kept⟩, ?_⟩
  show (if (e.rows p.1).len ≤ p.2 then (e.rows p.1).len else p.2) ≤ (e.rows p.1).len
  split
  · exact le_refl _
  · exact hin.2

theorem vimBack_sane (h : Sane e) : Sane (vimBack e) := by
  have hcx := h.cx
  unfold vimBack
  dsimp only
  have hfirst := scanDown_le (fun j => decide (e.line.len ≤ j) || edIsspace (e.line.cells j)) e.cx
  generalize scanDown _ e.cx = cx at hfirst ⊢
  refine ⟨⟨h.valid, h.cy, h.kept⟩, ?_⟩
  show (if cx < e.line.len ∧ _ then _ else cx) ≤ e.line.len
  split
  · have := scanDown_le (fun j => sameWord (e.line.cells cx) (e.line.cells (j - 1))) cx
    omega
  · omega

theorem vimB_sane (h : Sane e) : Sane (vimB e) := by
  have hcx := h.cx
  have hcy := h.cy
  unfold vimB
  split
  · split
    · exact h
    · apply vimBack_sane
      exact ⟨⟨h.valid, by show e.cy - 1 < e.nlines; omega, h.kept⟩, le_refl _⟩
  · apply vimBack_sane
    exact ⟨⟨h.valid, h.cy, h.kept⟩, by show e.cx - 1 ≤ e.line.len; omega⟩

theorem vimE_sane (h : Sane e) : Sane (vimE e) := by
  have hcy := h.cy
  have hcx := h.cx
  unfold vimE
  dsimp only
  have hstart : ∀ p : Nat × Nat,
      p = (if e.line.len ≤ e.cx + 1 then
        if e.cy + 1 < e.nlines then (e.cy + 1, 0) else (e.cy, e.cx)
      else (e.cy, e.cx + 1)) → p.1 < e.nlines ∧ p.2 ≤ (e.rows p.1).len := by
    rintro p rfl
    split
    · split
      · rename_i hmore
        exact ⟨hmore, Nat.zero_le _⟩
      · exact ⟨hcy, hcx⟩
    · rename_i hshort
      exact ⟨hcy, by show e.cx + 1 ≤ e.line.len; omega⟩
  generalize (if e.line.len ≤ e.cx + 1 then _ else (e.cy, e.cx + 1)) = p at hstart ⊢
  obtain ⟨hp1, hp2⟩ := hstart p rfl
  have hin := skipBlank_in (d := e.toDocument) (n := e.nlines - 1 - p.1) (by omega) hp2
  generalize skipBlank e.toDocument _ p.1 p.2 = q at hin ⊢
  refine ⟨⟨h.valid, hin.1, h.kept⟩, ?_⟩
  show (if q.2 < (e.rows q.1).len ∧ _ then _ else q.2) ≤ (e.rows q.1).len
  split
  · have := scanUp_bounds
      (fun j => sameWord ((e.rows q.1).cells q.2) ((e.rows q.1).cells (j + 1)))
      ((e.rows q.1).len - 1 - q.2) q.2
    omega
  · exact hin.2

theorem iterate_sane {f : Editor → Editor} (hf : ∀ {e}, Sane e → Sane (f e)) (n : Nat)
    (h : Sane e) : Sane (f^[n] e) :=
  Function.Iterate.rec Sane h (fun _ => hf) n

/-! ## Edits of the vim layer -/

theorem delChar_sane (h : Sane e) : Sane (delChar e) := by
  have hcx := h.cx
  unfold delChar
  split
  · exact h
  · rename_i hin
    exact h.edit (h.row.eraseAt e.cx) e.cx (by show e.cx ≤ e.line.len - 1; omega)

theorem wordEnd_bounds (h : cx ≤ r.len) : cx ≤ r.wordEnd cx ∧ r.wordEnd cx ≤ r.len := by
  unfold wordEnd
  split
  · split
    · exact skipSpace_le h
    · have hword := skipWord_le h
      have hspace := skipSpace_le hword.2
      exact ⟨le_trans hword.1 hspace.1, hspace.2⟩
  · exact ⟨le_refl _, h⟩

theorem delWord_sane (h : Sane e) : Sane (delWord e) := by
  have hend := wordEnd_bounds h.cx
  exact h.edit (h.row.eraseTo hend.1 hend.2) e.cx
    (by show e.cx ≤ e.line.len - (e.line.wordEnd e.cx - e.cx); omega)

theorem vimJoin_sane (h : Sane e) : Sane (vimJoin e) := by
  have hcx := h.cx
  have hcy := h.cy
  unfold vimJoin
  split
  · exact h
  rename_i hmore
  dsimp only
  have hbelow := h.valid.row (e.cy + 1) (by omega)
  have hjoined := h.valid.setRow (i := e.cy)
    (h.row.joinWith hbelow (s := (e.rows (e.cy + 1)).skipSpace 0))
  refine ⟨⟨hjoined.deleteLine ?_, ?_, h.kept⟩, ?_⟩
  · show 1 < e.nlines
    omega
  · show e.cy < e.nlines - 1
    omega
  · show e.cx ≤ (((e.setRow e.cy _).deleteLine (e.cy + 1)).rows e.cy).len
    rw [deleteLine_above (Nat.lt_succ_self _), setRow_self]
    refine le_trans hcx ?_
    unfold joinWith
    dsimp only
    split
    · show e.line.len ≤ e.line.len + 1 + _
      omega
    · exact Nat.le_add_right _ _

/-! ## Yank and paste -/

theorem yankLoop_plain (hd : d.Valid) {row n : Nat} (hn : row + n ≤ d.nlines)
    {acc : List UInt8} (hacc : ∀ c ∈ acc, c ≠ cr) : ∀ c ∈ (yankLoop d row n acc).1, c ≠ cr := by
  induction n generalizing row acc with
  | zero => exact hacc
  | succ n ih =>
    rw [yankLoop]
    split
    · exact hacc
    apply ih (by omega)
    intro c hc
    rw [mem_append, mem_append, mem_singleton] at hc
    rcases hc with (hc | hc) | rfl
    · exact hacc c hc
    · exact ((hd.row row (by omega)).chars.2 c hc).2
    · decide

theorem yankLoop_line {row n : Nat} {acc : List UInt8} (hacc : acc ≠ [] → lf ∈ acc) :
    (yankLoop d row n acc).1 ≠ [] → lf ∈ (yankLoop d row n acc).1 := by
  induction n generalizing row acc with
  | zero => exact hacc
  | succ n ih =>
    rw [yankLoop]
    split
    · exact hacc
    · apply ih
      intro _
      exact mem_append_right _ (mem_singleton.mpr rfl)

theorem yankLines_sane (h : Sane e) (count : Nat) : Sane (yankLines e e.cy count) := by
  have hcy := h.cy
  unfold yankLines
  dsimp only
  have hkept : Kept (yankLoop e.toDocument e.cy (min count (e.nlines - e.cy)) []).1 e.vcmd e.keyCsi
      e.undoCount e.vmode e.vpending :=
    { h.kept with
      yank_plain := yankLoop_plain h.valid (by omega) fun _ hc => absurd hc not_mem_nil
      yank_line := yankLoop_line fun hne => absurd rfl hne }
  split <;> exact ⟨⟨h.valid, h.cy, hkept⟩, h.cx⟩

theorem insertLineAt_nlines (d : Document) (i : Nat) (text : Line) :
    (d.insertLineAt i text).nlines = if edMaxLines ≤ d.nlines then d.nlines else d.nlines + 1 := by
  unfold insertLineAt
  split <;> rfl

theorem pasteLoop_valid {cs : List UInt8} (hcs : ∀ c ∈ cs, c ≠ cr) {part : Line}
    (hd : d.Valid) (hi : i ≤ d.nlines ∨ edMaxLines ≤ d.nlines) (hpart : ∀ c ∈ part, Plain c) :
    (pasteLoop cs d i part).Valid := by
  induction cs generalizing d i part with
  | nil => exact hd
  | cons c cs ih =>
    have hcs' : ∀ c ∈ cs, c ≠ cr := fun x hx => hcs x (mem_cons_of_mem _ hx)
    rw [pasteLoop]
    split
    · have hnlines := insertLineAt_nlines d i part
      apply ih hcs' ?_ ?_ (fun _ hc => absurd hc not_mem_nil)
      · rcases hi with hi | hfull
        · exact hd.insertLineAt hi hpart
        · unfold insertLineAt
          rw [if_pos hfull]
          exact hd
      · rw [hnlines]
        split <;> omega
    · rename_i hlf
      apply ih hcs' hd hi
      intro x hx
      rcases mem_append.mp hx with hx | hx
      · exact hpart x hx
      · rw [mem_singleton.mp hx]
        exact ⟨hlf, hcs c mem_cons_self⟩

theorem pasteLoop_le (cs : List UInt8) (d : Document) (i : Nat) (part : Line) :
    d.nlines ≤ (pasteLoop cs d i part).nlines := by
  induction cs generalizing d i part with
  | nil => exact le_refl _
  | cons c cs ih =>
    rw [pasteLoop]
    split
    · refine le_trans ?_ (ih _ _ _)
      rw [insertLineAt_nlines]
      split <;> omega
    · exact ih _ _ _

theorem pasteLoop_full (cs : List UInt8) (h : edMaxLines ≤ d.nlines) (i : Nat) (part : Line) :
    pasteLoop cs d i part = d := by
  induction cs generalizing i part with
  | nil => rfl
  | cons c cs ih =>
    rw [pasteLoop]
    split
    · rw [insertLineAt, if_pos h]
      exact ih _ _
    · exact ih _ _

theorem pasteLoop_lt {cs : List UInt8} (hlf : lf ∈ cs) (h : d.nlines < edMaxLines)
    (i : Nat) (part : Line) : d.nlines < (pasteLoop cs d i part).nlines := by
  induction cs generalizing i part with
  | nil => nomatch hlf
  | cons c cs ih =>
    rw [pasteLoop]
    split
    · refine lt_of_lt_of_le ?_ (pasteLoop_le _ _ _ _)
      rw [insertLineAt_nlines, if_neg (by omega)]
      exact Nat.lt_succ_self _
    rename_i hc
    apply ih
    rcases mem_cons.mp hlf with rfl | hmem
    · exact absurd rfl hc
    · exact hmem

/-- A paste above the line of the cursor, or below unless there is no room and no line. -/
theorem pasteLines_sane {below : Bool} (h : Sane e)
    (hfits : below = true → e.yank ≠ [] → e.nlines = edMaxLines → e.cy + 1 ≠ e.nlines) :
    Sane (pasteLines e below) := by
  have hcy := h.cy
  have hle := h.valid.le
  unfold pasteLines
  split
  · exact h
  rename_i hyank
  dsimp only
  refine ⟨⟨?_, ?_, h.kept⟩, Nat.zero_le _⟩
  · apply pasteLoop_valid h.kept.yank_plain h.valid (.inl ?_) (fun _ hc => absurd hc not_mem_nil)
    split <;> omega
  · show (if below then e.cy + 1 else e.cy) < (pasteLoop e.yank e.toDocument _ []).nlines
    have hgrow := pasteLoop_le e.yank e.toDocument (if below then e.cy + 1 else e.cy) []
    cases below with
    | false => exact lt_of_lt_of_le hcy hgrow
    | true =>
      show e.cy + 1 < _
      by_cases hfull : e.nlines = edMaxLines
      · have := hfits rfl hyank hfull
        refine lt_of_lt_of_le ?_ hgrow
        omega
      · exact lt_of_le_of_lt hcy (pasteLoop_lt (h.kept.yank_line hyank) (by omega) _ _)

theorem pasteLines_overflow (hyank : e.yank ≠ []) (hfull : e.nlines = edMaxLines)
    (hlast : e.cy + 1 = e.nlines) : ¬ (pasteLines e true).cy < (pasteLines e true).nlines := by
  unfold pasteLines
  rw [if_neg hyank]
  show ¬ e.cy + 1 < (pasteLoop e.yank e.toDocument (e.cy + 1) []).nlines
  rw [pasteLoop_full _ (by omega)]
  omega

/-! ## Search and the command line -/

theorem find_le {pat : Line} {c : Nat} (h : r.find pat = some c) : c ≤ r.len := by
  have hmem := mem_of_find?_eq_some h
  rw [mem_range] at hmem
  omega

theorem doSearch_sane {forward : Bool} (h : Sane e) : Sane (doSearch e forward) := by
  have hcy := h.cy
  unfold doSearch
  split
  · exact h
  dsimp only
  split
  · rename_i row c hhit
    obtain ⟨s, _, hs⟩ := exists_of_findSome?_eq_some hhit
    rw [Option.map_eq_some_iff] at hs
    obtain ⟨c', hfind, heq⟩ := hs
    cases heq
    refine ⟨⟨h.valid, ?_, h.kept⟩, find_le hfind⟩
    show (if forward then _ else _) < e.nlines
    split <;> exact Nat.mod_lt _ (by omega)
  · exact h.status _

theorem runCommand_sane (h : Sane e) : Sane (runCommand w e).2 := by
  unfold runCommand
  dsimp only
  split
  · split
    · rename_i hn
      apply clampCx_sane
      exact ⟨h.valid, by show number e.vcmd - 1 < e.nlines; omega, h.kept⟩
    · exact h
  have hsaved : Sane (if wantsWrite e.vcmd then save w e else e) := by
    split
    · exact save_sane h
    · exact h
  generalize (if wantsWrite e.vcmd then save w e else e) = e' at hsaved ⊢
  split
  · exact hsaved
  split
  · split
    · exact hsaved.status _
    · exact hsaved
  · split
    · exact hsaved.status _
    · exact hsaved

/-! ## Normal mode -/

variable {keyCsi : List UInt8}

theorem Kept.mode {yank : List UInt8} {vcmd : Line} {undoCount : Int}
    {m m' : Mode} {p p' : Option Op} (h : Kept yank vcmd keyCsi undoCount m p)
    (hp : m' ≠ .normal → p' = none) : Kept yank vcmd keyCsi undoCount m' p' :=
  { h with pending := hp }

theorem Sane.mode (h : Sane e) (hnone : e.vpending = none) (m : Mode) : Sane
    { e with vmode := m } :=
  ⟨⟨h.valid, h.cy, h.kept.mode fun _ => hnone⟩, h.cx⟩

theorem Sane.typed (h : Sane e) (vcmd : Line) (hlen : vcmd.length ≤ 127) :
    Sane { e with vcmd := vcmd } :=
  ⟨⟨h.valid, h.cy, { h.kept with vcmd := hlen }⟩, h.cx⟩

theorem Sane.csi (h : Sane e) (keyEs : Escape) (hlen : keyCsi.length ≤ 7) :
    Sane { e with keyEs := keyEs, keyCsi := keyCsi } :=
  ⟨⟨h.valid, h.cy, { h.kept with csi := hlen }⟩, h.cx⟩

theorem Sane.column (h : Sane e) (hcx : cx ≤ e.line.len) : Sane { e with cx := cx } :=
  ⟨⟨h.valid, h.cy, h.kept⟩, hcx⟩

theorem Near.line (h : Near e) {cy : Nat} (hcy : cy < e.nlines) : Near { e with cy := cy } :=
  ⟨h.valid, hcy, h.kept⟩

theorem plain_of_printable (h : printable k = true) : Plain (UInt8.ofNat k) := by
  unfold printable at h
  rw [Bool.and_eq_true, decide_eq_true_eq, decide_eq_true_eq] at h
  have hvalue : (UInt8.ofNat k).toNat = k := by
    rw [UInt8.toNat_ofNat']
    exact Nat.mod_eq_of_lt (by omega)
  constructor
  · intro heq
    have : k = 10 := hvalue.symm.trans (congrArg UInt8.toNat heq)
    omega
  · intro heq
    have : k = 13 := hvalue.symm.trans (congrArg UInt8.toNat heq)
    omega

theorem insertNewline_vpending (e : Editor) : (insertNewline e).vpending = e.vpending := by
  unfold insertNewline
  split <;> rfl

/-- There is something to paste, no room for it and no line below the cursor. -/
def Overflows (e : Editor) : Prop := e.yank ≠ [] ∧ e.nlines = edMaxLines ∧ e.cy + 1 = e.nlines

theorem handleCommand_sane (h : Sane e) (hnormal : e.vmode = .normal) (hnone : e.vpending = none)
    (cnt : Nat) (cmd : Command) (hpaste : cmd = .pasteBelow → ¬ Overflows e) :
    Sane (handleCommand w e cnt cmd).2 := by
  have hcy := h.cy
  have hcx := h.cx
  have hpush := pushUndo_sane h
  have hpending := (pushUndo_pushed e).vpending.trans hnone
  have hcut := hpush.edit (cut_ok (le_trans hpush.cx hpush.row.le) fun j hj =>
    hpush.row.plain j (lt_of_lt_of_le hj hpush.cx)) (pushUndo e).cx (le_refl _)
  cases cmd with
  | left => exact h.column (by omega)
  | right =>
    apply h.column
    split <;> omega
  | down | pageUp | pageDown =>
    apply clampCx_sane
    apply h.toNear.line
    split <;> omega
  | up => exact clampCx_sane (h.toNear.line (by omega))
  | home => exact h.column (Nat.zero_le _)
  | firstNonblank => exact h.column (skipSpace_le (Nat.zero_le _)).2
  | endOfLine => exact h.column (le_refl _)
  | word => exact iterate_sane vimW_sane cnt h
  | back => exact iterate_sane vimB_sane cnt h
  | wordEnd => exact iterate_sane vimE_sane cnt h
  | goto =>
    apply clampCx_sane
    apply h.toNear.line
    generalize (if 1 < cnt then cnt - 1 else e.nlines - 1) = cy
    split <;> omega
  | insert => exact hpush.mode hpending _
  | append =>
    unfold handleCommand
    dsimp only
    generalize pushUndo e = u at hpush hpending ⊢
    have hcx' := hpush.cx
    refine ⟨⟨hpush.valid, hpush.cy, hpush.kept.mode fun _ => hpending⟩, ?_⟩
    show (if u.cx < u.line.len then u.cx + 1 else u.cx) ≤ u.line.len
    split <;> omega
  | insertHome => exact (hpush.column (Nat.zero_le _)).mode hpending _
  | appendEnd => exact (hpush.column (le_refl _)).mode hpending _
  | openBelow =>
    refine (insertNewline_sane (hpush.column (le_refl _))).mode ?_ _
    rw [insertNewline_vpending]
    exact hpending
  | openAbove =>
    rw [handleCommand]
    dsimp only
    generalize pushUndo e = u at hpush hpending ⊢
    have hopened := insertNewline_sane (hpush.column (Nat.zero_le _))
    have hpending' := (insertNewline_vpending { u with cx := 0 }).trans hpending
    -- the column is 0, in whatever line
    have hzero : (insertNewline { u with cx := 0 }).cx = 0 := by
      unfold insertNewline
      split <;> rfl
    generalize insertNewline { u with cx := 0 } = v at hopened hpending' hzero ⊢
    have hcy' := hopened.cy
    refine ⟨⟨hopened.valid, ?_, hopened.kept.mode fun _ => hpending'⟩, ?_⟩
    · show v.cy - 1 < v.nlines
      omega
    · show v.cx ≤ _
      rw [hzero]
      exact Nat.zero_le _
  | deleteChar => exact clampCx_sane (iterate_sane delChar_sane cnt hpush).toNear
  | deleteEnd => exact hcut
  | changeEnd => exact hcut.mode hpending _
  | join => exact vimJoin_sane hpush
  | pasteBelow =>
    have hp := pushUndo_pushed e
    apply pasteLines_sane hpush
    intro _ hne hfull hlast
    rw [hp.yank] at hne
    rw [hp.doc] at hfull hlast
    rw [hp.cy] at hlast
    exact hpaste rfl ⟨hne, hfull, hlast⟩
  | pasteAbove => exact pasteLines_sane hpush fun hbelow => nomatch hbelow
  | undo => exact doUndo_sane h
  | operator op => exact ⟨⟨h.valid, h.cy, h.kept.mode fun hmode => absurd hnormal hmode⟩, h.cx⟩
  | next | previous => exact doSearch_sane h
  | commandLine | searchLine => exact (h.typed [] (Nat.zero_le _)).mode hnone _
  | save => exact save_sane h
  | saveRun =>
    have hsaved := saveFile_sane (w := w) h
    rw [handleCommand]
    dsimp only
    split
    · exact hsaved
    · exact hsaved.status _
  | quit =>
    rw [handleCommand]
    split
    · exact h.status _
    · exact h
  | other => exact h

theorem deleteLines_valid (h : d.Valid) (row n : Nat) : (deleteLines d row n).Valid := by
  induction n generalizing d with
  | zero => exact h
  | succ n ih =>
    rw [deleteLines]
    split
    · rename_i hmore
      exact ih (h.deleteLine hmore)
    · exact h

section

variable (h : Sane e)
include h

theorem deleteCommand_sane (cnt : Nat) : Sane (deleteCommand e cnt) := by
  have hyanked : Sane (yankLines (pushUndo e) e.cy cnt) := by
    have := yankLines_sane (pushUndo_sane h) cnt
    rwa [(pushUndo_pushed e).cy] at this
  unfold deleteCommand
  dsimp only
  generalize yankLines (pushUndo e) e.cy cnt = e' at hyanked ⊢
  have hcy := hyanked.cy
  split
  · apply clampCx_sane
    exact ⟨hyanked.valid.setRow (cut_zero_ok _), hyanked.cy, hyanked.kept⟩
  apply clampCx_sane
  have hvalid := deleteLines_valid hyanked.valid e'.cy cnt
  have hpos := hvalid.pos
  refine ⟨hvalid, ?_, hyanked.kept⟩
  show (if (deleteLines e'.toDocument e'.cy cnt).nlines ≤ e'.cy then _ else e'.cy) <
    (deleteLines e'.toDocument e'.cy cnt).nlines
  split <;> omega

theorem handlePending_sane (hnone : e.vpending = none) (cnt k : Nat) (op : Op) :
    Sane (handlePending e cnt k op) := by
  have hcy := h.cy
  have hpush := pushUndo_sane h
  have hpending := (pushUndo_pushed e).vpending.trans hnone
  cases op with
  | r =>
    rw [handlePending]
    split
    · rename_i hk
      obtain ⟨hprint, hin⟩ := hk
      have hp := pushUndo_pushed e
      have hin' : (pushUndo e).cx < (pushUndo e).line.len := by
        unfold Editor.line
        rw [hp.cx, hp.cy, hp.doc]
        exact hin
      have hplain := plain_of_printable hprint
      exact hpush.edit (hpush.row.set hin' hplain) (pushUndo e).cx hpush.cx
    · exact h
  | g =>
    rw [handlePending]
    split
    · exact clampCx_sane (h.toNear.line (by omega))
    · exact h
  | d =>
    rw [handlePending]
    split
    · exact deleteCommand_sane h cnt
    · split
      · exact delWord_sane hpush
      · exact h
  | c =>
    rw [handlePending]
    split
    · have hedit := hpush.edit (cut_zero_ok (pushUndo e).line) 0 (Nat.zero_le _)
      exact hedit.mode hpending _
    · split
      · exact (delWord_sane hpush).mode hpending _
      · exact h
  | y =>
    rw [handlePending]
    split
    · exact (yankLines_sane h cnt).status _
    · exact h

theorem handleNormal_sane (hnormal : e.vmode = .normal) (k : Nat)
    (hpaste : e.vpending = none → command k = .pasteBelow → ¬ Overflows e) :
    Sane (handleNormal w e k).2 := by
  unfold handleNormal
  split
  · exact h
  dsimp only
  split
  · apply handlePending_sane
    · exact ⟨⟨h.valid, h.cy, h.kept.mode fun _ => rfl⟩, h.cx⟩
    · rfl
  · rename_i hnone
    exact handleCommand_sane (e := { e with vcount := 0 }) h hnormal hnone _ _ (hpaste hnone)

/-! ## The other modes -/

theorem handleInsert_sane (k : Nat) : Sane (handleInsert e k) := by
  have hcy := h.cy
  have hcx := h.cx
  unfold handleInsert
  split
  · exact insertNewline_sane h
  split
  · exact doBackspace_sane h
  split
  · exact doDelete_sane h
  split
  · exact h.column (by omega)
  split
  · apply h.column
    split <;> omega
  split
  · split
    · exact clampCx_sane (h.toNear.line (by omega))
    · exact h
  split
  · split
    · rename_i hmore
      exact clampCx_sane (h.toNear.line hmore)
    · exact h
  split
  · exact h.column (Nat.zero_le _)
  split
  · exact h.column (le_refl _)
  split
  · rename_i hprint
    exact insertChar_sane h (plain_of_printable hprint)
  · exact h

theorem Sane.toNormal : Sane { e with vmode := .normal } :=
  ⟨⟨h.valid, h.cy, h.kept.mode fun hmode => absurd rfl hmode⟩, h.cx⟩

theorem handleLineMode_sane (k : Nat) : Sane (handleLineMode w e k).2 := by
  have hvcmd := h.kept.vcmd
  unfold handleLineMode
  split
  · exact h.toNormal
  split
  · split
    · exact doSearch_sane (e := { e with vmode := .normal, vsearch := e.vcmd })
        ⟨⟨h.valid, h.cy, h.toNormal.kept⟩, h.cx⟩
    · exact runCommand_sane h.toNormal
  split
  · split
    · apply h.typed
      rw [length_dropLast]
      omega
    · exact h.toNormal
  split
  · rename_i hroom
    apply h.typed
    rw [length_append, length_singleton]
    omega
  · exact h

theorem handleEscape_sane : Sane (handleEscape e) := by
  have hcx := h.cx
  unfold handleEscape
  split
  · exact h.toNormal
  · refine ⟨⟨h.valid, h.cy, h.kept.mode fun _ => rfl⟩, ?_⟩
    show (if e.vmode = .insert ∧ 0 < e.cx then e.cx - 1 else e.cx) ≤ e.line.len
    split <;> omega

end

/-- A key that pastes past the end. -/
def KeyOverflows (e : Editor) (k : Nat) : Prop :=
  e.vmode = .normal ∧ e.vpending = none ∧ command k = .pasteBelow ∧ Overflows e

/-! ### The dispatch -/

theorem vimKeyLogical_escape (w : Answer) (e : Editor) :
    vimKeyLogical w e 27 = (.cont, handleEscape e) := rfl

theorem vimKeyLogical_insert (hk : k ≠ 27) (hmode : e.vmode = .insert) :
    vimKeyLogical w e k = (.cont, handleInsert e k) := by
  unfold vimKeyLogical
  rw [if_neg hk, hmode]
  dsimp only
  rw [if_neg (by decide), hmode]

theorem vimKeyLogical_line (hk : k ≠ 27) (hmode : e.vmode = .command ∨ e.vmode = .search) :
    vimKeyLogical w e k = handleLineMode w e k := by
  unfold vimKeyLogical
  rcases hmode with hmode | hmode <;>
  · rw [if_neg hk, hmode]
    dsimp only
    rw [if_neg (by decide), hmode]

theorem vimKeyLogical_normal (hk : k ≠ 27) (hmode : e.vmode = .normal) :
    vimKeyLogical w e k = handleNormal w { e with statusMsg := none } k := by
  unfold vimKeyLogical
  rw [if_neg hk, if_pos hmode]
  dsimp only
  rw [hmode]

theorem mode_cases (e : Editor) :
    e.vmode = .insert ∨ (e.vmode = .command ∨ e.vmode = .search) ∨ e.vmode = .normal := by
  cases e.vmode with
  | normal => exact .inr (.inr rfl)
  | insert => exact .inl rfl
  | command => exact .inr (.inl (.inl rfl))
  | search => exact .inr (.inl (.inr rfl))

theorem vimKeyLogical_sane (h : Sane e) (k : Nat) (hpaste : ¬ KeyOverflows e k) :
    Sane (vimKeyLogical w e k).2 := by
  by_cases hk : k = 27
  · rw [hk, vimKeyLogical_escape]
    exact handleEscape_sane h
  rcases mode_cases e with hmode | hmode | hmode
  · rw [vimKeyLogical_insert hk hmode]
    exact handleInsert_sane h k
  · rw [vimKeyLogical_line hk hmode]
    exact handleLineMode_sane h k
  rw [vimKeyLogical_normal hk hmode]
  have hcleared : Sane { e with statusMsg := none } := h
  apply handleNormal_sane hcleared hmode k
  intro hnone hcmd hover
  exact hpaste ⟨hmode, hnone, hcmd, hover⟩

theorem mem_of_lookup {β : Type} {l : List (Nat × β)} {v : β} (h : l.lookup k = some v) :
    (k, v) ∈ l := by
  obtain ⟨l1, l2, rfl, _⟩ := lookup_eq_some_iff.mp h
  exact mem_append_right _ mem_cons_self

theorem mem_commandKeys (h : command k ≠ .other) : (k, command k) ∈ commandKeys := by
  unfold command at h ⊢
  cases hfound : commandKeys.lookup k with
  | none =>
    rw [hfound] at h
    exact absurd rfl h
  | some cmd => exact mem_of_lookup hfound

theorem command_pasteBelow (h : command k = .pasteBelow) : k = 'p'.toNat := by
  have hmem := mem_commandKeys (k := k) (by rw [h]; decide)
  rw [h] at hmem
  have hlabels : ∀ p ∈ commandKeys, p.2 = .pasteBelow → p.1 = 'p'.toNat := by decide
  exact hlabels _ hmem rfl

theorem not_digit {k : Nat} (hk : '9'.toNat < k) (v : Int) :
    ¬ ('1'.toNat ≤ k ∧ k ≤ '9'.toNat ∨ k = '0'.toNat ∧ 0 < v) := by
  have hzero : '0'.toNat < '9'.toNat := by decide
  omega

theorem vimKeyLogical_overflow (h : KeyOverflows e k) :
    ¬ (vimKeyLogical w e k).2.cy < (vimKeyLogical w e k).2.nlines := by
  obtain ⟨hmode, hnone, hcmd, hyank, hfull, hlast⟩ := h
  have hk : k = 'p'.toNat := command_pasteBelow hcmd
  have hp := pushUndo_pushed { e with statusMsg := none, vcount := 0 }
  have heq : vimKeyLogical w e k =
      (.cont, pasteLines (pushUndo { e with statusMsg := none, vcount := 0 }) true) := by
    rw [vimKeyLogical_normal (by rw [hk]; decide) hmode]
    unfold handleNormal
    rw [if_neg (not_digit (by rw [hk]; decide) _)]
    dsimp only
    rw [hnone, hcmd]
    rfl
  rw [heq]
  apply pasteLines_overflow
  · rw [hp.yank]
    exact hyank
  · rw [hp.doc]
    exact hfull
  · rw [hp.cy, hp.doc]
    exact hlast

/-! ## Bytes -/

/-- A byte that pastes past the end: a `p` in normal mode, or right behind an Esc. -/
def PastesPastEnd (e : Editor) (byte : UInt8) : Prop :=
  byte.toNat = 'p'.toNat ∧ Overflows e ∧
    (e.keyEs = .esc ∨ e.keyEs = .ground ∧ e.vmode = .normal ∧ e.vpending = none)

/-- The inputs that keep the cursor in the document. -/
def Input.Fits (e : Editor) : Input → Prop
  | .key byte _ => ¬ PastesPastEnd e byte
  | _ => True

theorem csiKey_range {params : List UInt8} {final : Nat} (h : csiKey params final = some k) :
    keyUp ≤ k ∧ k < keyEnter := by
  have hfinals : ∀ p ∈ csiFinals, keyUp ≤ p.2 ∧ p.2 < keyEnter := by decide
  have hparams : ∀ p ∈ csiParams, keyUp ≤ p.2 ∧ p.2 < keyEnter := by decide
  unfold csiKey at h
  split at h
  · obtain ⟨p, _, hp⟩ := Option.bind_eq_some_iff.mp h
    exact hparams _ (mem_of_lookup hp)
  · exact hfinals _ (mem_of_lookup h)

/-- The Esc key leaves the document and the register alone, and normal mode behind. -/
theorem handleEscape_frame (e : Editor) :
    (handleEscape e).toDocument = e.toDocument ∧ (handleEscape e).cy = e.cy ∧
    (handleEscape e).yank = e.yank ∧ (handleEscape e).vmode = .normal := by
  unfold handleEscape
  split <;> exact ⟨rfl, rfl, rfl, rfl⟩

theorem handleEscape_pending (h : Sane e) : (handleEscape e).vpending = none := by
  unfold handleEscape
  split
  · rename_i hmode
    apply h.kept.pending
    rcases hmode with hmode | hmode <;> rw [hmode] <;> decide
  · rfl

theorem overflows_handleEscape (e : Editor) : Overflows (handleEscape e) ↔ Overflows e := by
  obtain ⟨hdoc, hcy, hyank, _⟩ := handleEscape_frame e
  unfold Overflows
  rw [hdoc, hcy, hyank]

variable {byte : UInt8}

theorem editorVimKey_esc (hes : e.keyEs = .esc)
    (hb : ¬ (byte.toNat = '['.toNat ∨ byte.toNat = 'O'.toNat)) :
    editorVimKey w e byte = vimKeyLogical w (handleEscape { e with keyEs := .ground }) byte.toNat := by
  unfold editorVimKey
  simp only [hes, if_neg hb]
  rfl

theorem plainKey_letter {k : Nat} (hk : 32 ≤ k ∧ k < 127) :
    plainKey byte.toNat = k ↔ byte.toNat = k := by
  unfold plainKey
  split
  · rename_i hb
    constructor
    · intro h
      have : keyEnter = 0x109 := rfl
      omega
    · intro h
      rw [h] at hb
      have h13 : '\r'.toNat = 13 := rfl
      have h10 : '\n'.toNat = 10 := rfl
      omega
  · split
    · constructor
      · intro h
        have : keyBackspace = 0x10A := rfl
        omega
      · omega
    · exact Iff.rfl

/-- The keys of a byte: no more than an Esc and one key. -/
inductive Keys (w : Answer) (e : Editor) (byte : UInt8) : Prop where
  | none (keyEs : Escape) (keyCsi : List UInt8) (hlen : e.keyCsi.length ≤ 7 → keyCsi.length ≤ 7)
    (h : editorVimKey w e byte = (.cont, { e with keyEs, keyCsi }))
  | plain (hes : e.keyEs = .ground)
    (h : editorVimKey w e byte = vimKeyLogical w e (plainKey byte.toNat))
  | escaped (hes : e.keyEs = .esc) (h : editorVimKey w e byte =
      vimKeyLogical w (handleEscape { e with keyEs := .ground }) byte.toNat)
  | csi (hes : e.keyEs = .csi) (k : Nat) (hk : keyUp ≤ k ∧ k < keyEnter)
      (h : editorVimKey w e byte = vimKeyLogical w { e with keyEs := .ground } k)

theorem editorVimKey_keys (w : Answer) (e : Editor) (byte : UInt8) : Keys w e byte := by
  cases hes : e.keyEs with
  | esc =>
    by_cases hb : byte.toNat = '['.toNat ∨ byte.toNat = 'O'.toNat
    · refine .none .csi [] (fun _ => Nat.zero_le _) ?_
      unfold editorVimKey
      simp only [hes, if_pos hb]
    · exact .escaped hes (editorVimKey_esc hes hb)
  | csi =>
    by_cases hb : 0x40 ≤ byte.toNat ∧ byte.toNat ≤ 0x7E
    · cases hkey : csiKey e.keyCsi byte.toNat with
      | none =>
        refine .none .ground e.keyCsi id ?_
        unfold editorVimKey
        simp only [hes, if_pos hb, hkey]
      | some k =>
        refine .csi hes k (csiKey_range hkey) ?_
        unfold editorVimKey
        simp only [hes, if_pos hb, hkey]
    · by_cases hroom : e.keyCsi.length < 7
      · refine .none e.keyEs (e.keyCsi ++ [byte]) (fun _ => ?_) ?_
        · rw [length_append, length_singleton]
          exact hroom
        · unfold editorVimKey
          simp only [hes, if_neg hb, if_pos hroom]
      · refine .none e.keyEs e.keyCsi id ?_
        show editorVimKey w e byte = (.cont, e)
        unfold editorVimKey
        simp only [hes, if_neg hb, if_neg hroom]
  | ground =>
    by_cases hb : byte.toNat = 27
    · refine .none .esc e.keyCsi id ?_
      unfold editorVimKey
      simp only [hes, if_pos hb]
    · refine .plain hes ?_
      unfold editorVimKey
      simp only [hes, if_neg hb]

theorem editorVimKey_sane (h : Sane e) (byte : UInt8) (hfits : ¬ PastesPastEnd e byte) :
    Sane (editorVimKey w e byte).2 := by
  have hground : Sane { e with keyEs := .ground } := h
  cases editorVimKey_keys w e byte with
  | none es csi hlen heq =>
    rw [heq]
    exact h.csi es (hlen h.kept.csi)
  | plain hes heq =>
    rw [heq]
    apply vimKeyLogical_sane h
    rintro ⟨hmode, hnone, hcmd, hover⟩
    have hkey := (plainKey_letter (by decide)).mp (command_pasteBelow hcmd)
    exact hfits ⟨hkey, hover, .inr ⟨hes, hmode, hnone⟩⟩
  | escaped hes heq =>
    rw [heq]
    apply vimKeyLogical_sane (handleEscape_sane hground)
    rintro ⟨_, _, hcmd, hover⟩
    have hover' : Overflows { e with keyEs := .ground } := (overflows_handleEscape _).mp hover
    exact hfits ⟨command_pasteBelow hcmd, hover', .inl hes⟩
  | csi hes k hk heq =>
    rw [heq]
    apply vimKeyLogical_sane hground
    rintro ⟨_, _, hcmd, _⟩
    have hge := hk.1
    rw [command_pasteBelow hcmd] at hge
    exact absurd hge (by decide)

theorem take_overflow (h : Sane e) (hpast : PastesPastEnd e byte) :
    ¬ (take e (.key byte w)).2.cy < (take e (.key byte w)).2.nlines := by
  show ¬ (editorVimKey w e byte).2.cy < (editorVimKey w e byte).2.nlines
  obtain ⟨hbyte, hover, hstate⟩ := hpast
  have hcmd : command 'p'.toNat = .pasteBelow := by decide
  rcases hstate with hes | ⟨hes, hmode, hnone⟩
  · have hground : Sane { e with keyEs := .ground } := h
    rw [editorVimKey_esc hes (by rw [hbyte]; decide), hbyte]
    exact vimKeyLogical_overflow ⟨(handleEscape_frame _).2.2.2, handleEscape_pending hground, hcmd,
      (overflows_handleEscape _).mpr hover⟩
  have heq : editorVimKey w e byte = vimKeyLogical w e 'p'.toNat := by
    unfold editorVimKey
    simp only [hes, hbyte]
    rfl
  rw [heq]
  exact vimKeyLogical_overflow ⟨hmode, hnone, hcmd, hover⟩

theorem take_sane (h : Sane e) {i : Input} (hfits : i.Fits e) : Sane (take e i).2 := by
  cases i with
  | key byte w => exact editorVimKey_sane h byte hfits
  | flush w =>
    show Sane (editorVimFlush w e).2
    unfold editorVimFlush
    split
    · have hground : Sane { e with keyEs := .ground } := h
      exact handleEscape_sane hground
    · exact h
  | draw rows => exact h
  | close => exact h

/-! ## Every run -/

/-- The states of an editor on the file `path` of `disk`, for every sequence of inputs each of
which meets a condition. -/
inductive Reached (cond : Editor → Input → Prop) (disk : Disk) (path : List UInt8) : Editor → Prop where
  | opened : Reached cond disk path (editorOpen disk path)
  | step {e : Editor} (i : Input) (h : Reached cond disk path e) (hi : cond e i) :
      Reached cond disk path (take e i).2

/-- What every function of the editor relies on. -/
structure Bounds (e : Editor) : Prop where
  nlines_pos : 1 ≤ e.nlines
  nlines_le : e.nlines ≤ 1024
  cy : e.cy < e.nlines
  cx : e.cx ≤ e.line.len
  line : ∀ i < e.nlines, (e.rows i).len ≤ 256 ∧ (e.rows i).cells (e.rows i).len = 0
  vcmd : e.vcmd.length ≤ 127
  csi : e.keyCsi.length ≤ 7
  undo : 0 ≤ e.undoCount ∧ e.undoCount ≤ 16

theorem Sane.bounds (h : Sane e) : Bounds e where
  nlines_pos := h.valid.pos
  nlines_le := h.valid.le
  cy := h.cy
  cx := h.cx
  line i hi := ⟨(h.valid.row i hi).le, (h.valid.row i hi).nul⟩
  vcmd := h.kept.vcmd
  csi := h.kept.csi
  undo := ⟨h.kept.undo_nonneg, h.kept.undo_le⟩

variable {cond : Editor → Input → Prop} {disk : Disk} {path : List UInt8}

theorem Reached.sane (h : Reached cond disk path e)
    (hfits : ∀ {e i}, cond e i → i.Fits e) : Sane e := by
  induction h with
  | opened => exact sane_editorOpen disk path
  | step i _ hi ih => exact take_sane ih (hfits hi)

/-- A disk whose files all have the contents `data`. -/
def uniformDisk (data : List UInt8) : Disk := fun _ => some data

/-- Some bytes in a row. -/
def feed (w : Answer) (e : Editor) (bytes : List UInt8) : Editor :=
  bytes.foldl (fun e b => (editorVimKey w e b).2) e

theorem Reached.feed (h : Reached cond disk path e) {bytes : List UInt8}
    (hcond : ∀ (e : Editor), ∀ b ∈ bytes, cond e (.key b w)) : Reached cond disk path
    (feed w e bytes) := by
  induction bytes generalizing e with
  | nil => exact h
  | cons b bytes ih =>
    apply ih (h.step (.key b w) (hcond e b mem_cons_self))
    intro e' b' hb'
    exact hcond e' b' (mem_cons_of_mem _ hb')

/-- A run in which nothing is pasted. -/
theorem reached_feed {bytes : List UInt8} (hbytes : ∀ b ∈ bytes, b.toNat ≠ 'p'.toNat) :
    Reached (fun e i => i.Fits e) disk path (feed w (editorOpen disk path) bytes) :=
  Reached.opened.feed fun _ b hb hpast => hbytes b hb hpast.1

/-- The answer of a disk that takes everything and forgets it. -/
def idleAnswer : Answer := ⟨true, uniformDisk []⟩

/-- **The editor stays inside its arrays**: in every state that is reached without a paste past the
end, and an input leads to another such state if and only if it is no such paste. -/
theorem editor_bounds (h : Reached (fun e i => i.Fits e) disk path e) :
    Bounds e ∧ ∀ i : Input, Bounds (take e i).2 ↔ i.Fits e := by
  have hsane := h.sane id
  refine ⟨hsane.bounds, fun i => ⟨?_, fun hfits => (take_sane hsane hfits).bounds⟩⟩
  intro hbounds
  cases i with
  | key byte w => exact fun hpast => take_overflow hsane hpast hbounds.cy
  | flush | draw | close => trivial

/-- `o`, `b`, an Esc and `yy` in a file with one line. A `p` then pastes a third line. -/
theorem editor_bounds_paste :
    let e := feed idleAnswer (editorOpen (uniformDisk [97]) [47, 97]) [111, 98, 27, 121, 121]
    Bounds e ∧ e.nlines = 2 ∧ Bounds (take e (.key 112 idleAnswer)).2 ∧
      (take e (.key 112 idleAnswer)).2.nlines = 3 := by
  intro e
  have hlines : e.nlines = 2 := by decide +kernel
  obtain ⟨hbounds, hnext⟩ := editor_bounds (e := e) (reached_feed (by decide +kernel))
  refine ⟨hbounds, hlines, (hnext _).mpr fun hpast => ?_, by decide +kernel⟩
  exact absurd (hlines.symm.trans hpast.2.1.2.1) (by decide)

/-- A disk with a file of 1024 empty lines. -/
def fullDisk : Disk := uniformDisk (List.replicate edMaxLines lf)

/-- `G` and `yy` in that file. -/
def fullEditor : Editor := feed idleAnswer (editorOpen fullDisk [47, 97]) [71, 121, 121]

theorem fullEditor_reached : Reached (fun e i => i.Fits e) fullDisk [47, 97] fullEditor :=
  reached_feed (by decide +kernel)

theorem fullEditor_state : fullEditor.yank ≠ [] ∧ fullEditor.nlines = edMaxLines ∧
    fullEditor.cy + 1 = fullEditor.nlines ∧ fullEditor.keyEs = .ground ∧
    fullEditor.vmode = .normal ∧ fullEditor.vpending = none := by
  decide +kernel

/-- A `p` there leaves the cursor on a line there is not. -/
theorem cursor_past_end : ∃ e, Reached (fun e i => i.Fits e) fullDisk [47, 97] e ∧
    ¬ (take e (.key 112 idleAnswer)).2.cy < (take e (.key 112 idleAnswer)).2.nlines := by
  obtain ⟨hyank, hfull, hlast, hes, hmode, hnone⟩ := fullEditor_state
  have hpast : PastesPastEnd fullEditor 112 :=
    ⟨by decide, ⟨hyank, hfull, hlast⟩, .inr ⟨hes, hmode, hnone⟩⟩
  exact ⟨fullEditor, fullEditor_reached, take_overflow (fullEditor_reached.sane id) hpast⟩

end JuampiOs.Edit
