import JuampiOs.Edit.Effects

/-!
# The dirty flag

The flag is set whenever the document differs from what was last loaded or saved, as long as `dd`
and `cc` are not used on an unmarked document that they change (`dirty_flag`): they are the only
edits that do not set it.
-/

namespace JuampiOs.Edit

open Lib List Document

variable {e e' : Editor} {w : Answer} {disk : Disk} {path : List UInt8}

/-! ## The keys that clear lines -/

theorem text_setRow {d : Document} {i : Nat} {r : Row} (h : r.chars = (d.rows i).chars) :
    (d.setRow i r).text = d.text := by
  unfold text
  apply map_congr_left
  intro k _
  by_cases hk : k = i
  · rw [hk, setRow_self]
    exact h
  · rw [setRow_other hk]

theorem chars_of_len_zero {r : Row} (h : r.len = 0) : r.chars = [] := by
  rw [Row.chars, h]
  rfl

theorem chars_cut_zero (r : Row) : (r.cut 0).chars = [] := chars_of_len_zero rfl

theorem yanked_doc (e : Editor) (row cnt : Nat) :
    (yankLines (pushUndo e) row cnt).toDocument = e.toDocument :=
  (yankLines_calm _ _ _).doc.trans (pushUndo_pushed e).doc

theorem deleteCommand_text (cnt : Nat) (hone : e.nlines ≤ 1) (hempty : (e.rows 0).len = 0) :
    (deleteCommand e cnt).text = e.text := by
  have hdoc := yanked_doc e e.cy cnt
  unfold deleteCommand
  generalize yankLines (pushUndo e) e.cy cnt = m at hdoc ⊢
  rw [if_pos (by rw [hdoc]; exact hone), (clampCx_calm _).toStill.text]
  rw [hdoc]
  apply text_setRow
  rw [chars_cut_zero, chars_of_len_zero hempty]

theorem deleteLines_lt {d : Document} (hmore : 1 < d.nlines) (row n : Nat) :
    (deleteLines d row (n + 1)).nlines < d.nlines := by
  have hle : ∀ (n : Nat) (d : Document), (deleteLines d row n).nlines ≤ d.nlines := by
    intro n
    induction n with
    | zero => exact fun d => le_refl _
    | succ n ih =>
      intro d
      rw [deleteLines]
      split
      · exact le_trans (ih _) (Nat.sub_le _ _)
      · exact le_refl _
  rw [deleteLines, if_pos hmore]
  refine lt_of_le_of_lt (hle n _) ?_
  show d.nlines - 1 < d.nlines
  omega

theorem deleteCommand_text_ne {cnt : Nat} (hcnt : 0 < cnt) (hvalid : e.toDocument.Valid)
    (hsome : 1 < e.nlines ∨ (e.rows 0).len ≠ 0) : (deleteCommand e cnt).text ≠ e.text := by
  have hpos := hvalid.pos
  have hdoc := yanked_doc e e.cy cnt
  unfold deleteCommand
  dsimp only
  generalize yankLines (pushUndo e) e.cy cnt = m at hdoc ⊢
  intro htext
  split at htext
  · rename_i hone
    rw [hdoc] at hone
    rw [(clampCx_calm _).toStill.text] at htext
    have hfirst := congrArg head? htext
    have hrow : (m.toDocument.setRow 0 ((m.rows 0).cut 0)).text.head? = some [] := by
      rw [text, head?_map, hdoc]
      show ((range e.nlines).head?).map _ = _
      rw [show e.nlines = 1 by omega]
      show some ((setRow _ 0 _).rows 0).chars = _
      rw [setRow_self, chars_cut_zero]
    have hold : e.text.head? = some (e.rows 0).chars := by
      rw [text, head?_map, show e.nlines = 1 by omega]
      rfl
    have heq := hrow.symm.trans (hfirst.trans hold)
    have hlen := congrArg (Option.map length) heq
    simp at hlen
    omega
  · rename_i hmore
    rw [hdoc] at hmore
    rw [(clampCx_calm _).toStill.text] at htext
    have hlen := congrArg length htext
    rw [length_text, length_text] at hlen
    obtain ⟨n, rfl⟩ : ∃ n, cnt = n + 1 := ⟨cnt - 1, by omega⟩
    have hsame : m.nlines = e.nlines := congrArg nlines hdoc
    have hlt := deleteLines_lt (d := m.toDocument) (by omega) m.cy n
    have heq : (deleteLines m.toDocument m.cy (n + 1)).nlines = e.nlines := hlen
    omega

theorem changeCommand_doc (e : Editor) :
    (changeCommand e).toDocument = e.toDocument.setRow e.cy (e.line.cut 0) := by
  have hp := pushUndo_pushed e
  unfold changeCommand Editor.line
  show (pushUndo e).toDocument.setRow (pushUndo e).cy (((pushUndo e).rows (pushUndo e).cy).cut 0) = _
  rw [hp.cy, hp.doc]

theorem changeCommand_text (hempty : e.line.len = 0) : (changeCommand e).text = e.text := by
  rw [changeCommand_doc]
  apply text_setRow
  rw [chars_cut_zero]
  exact (chars_of_len_zero hempty).symm

theorem changeCommand_text_ne (hcy : e.cy < e.nlines) (hsome : e.line.len ≠ 0) :
    (changeCommand e).text ≠ e.text := by
  rw [changeCommand_doc]
  intro htext
  have hrow := congrArg (fun t : Text => t[e.cy]?) htext
  simp only [text, getElem?_map] at hrow
  rw [show (e.toDocument.setRow e.cy (e.line.cut 0)).nlines = e.nlines from rfl,
    getElem?_range hcy] at hrow
  simp only [Option.map_some, setRow_self, chars_cut_zero] at hrow
  have hlen := congrArg (Option.map length) hrow
  simp at hlen
  exact hsome hlen.symm

/-- The editor when the operator that was waiting is carried out. -/
abbrev taken (e : Editor) : Editor := { e with statusMsg := none, vpending := none, vcount := 0 }

theorem vimKeyLogical_dd (hmode : e.vmode = .normal) (hop : e.vpending = some .d) :
    (vimKeyLogical w e 'd'.toNat).2 =
      deleteCommand (taken e) (if 0 < e.vcount then e.vcount.toNat else 1) := by
  rw [vimKeyLogical_normal (by decide) hmode]
  unfold handleNormal
  rw [if_neg (not_digit (by decide) _), hop]
  rfl

theorem vimKeyLogical_cc (hmode : e.vmode = .normal) (hop : e.vpending = some .c) :
    (vimKeyLogical w e 'c'.toNat).2 =
      changeCommand (taken e) := by
  rw [vimKeyLogical_normal (by decide) hmode]
  unfold handleNormal
  rw [if_neg (not_digit (by decide) _), hop]
  rfl

/-- The key clears lines of an unmarked document that are not empty. -/
def UnmarkedKey (e : Editor) (k : Nat) : Prop :=
  e.dirty = false ∧ e.vmode = .normal ∧
    (e.vpending = some .d ∧ k = 'd'.toNat ∧ (1 < e.nlines ∨ (e.rows 0).len ≠ 0) ∨
     e.vpending = some .c ∧ k = 'c'.toNat ∧ e.line.len ≠ 0)

variable {k : Nat}

theorem clear_still (hkey : ClearKey e k) (hmarked : ¬ UnmarkedKey e k) :
    e.dirty = true ∨ (vimKeyLogical w e k).2.text = e.text := by
  cases hdirty : e.dirty with
  | true => exact .inl rfl
  | false =>
    right
    obtain ⟨hmode, ⟨hop, rfl⟩ | ⟨hop, rfl⟩⟩ := hkey
    · have hnone : ¬ (1 < e.nlines ∨ (e.rows 0).len ≠ 0) := fun hsome =>
        hmarked ⟨hdirty, hmode, .inl ⟨hop, rfl, hsome⟩⟩
      rw [vimKeyLogical_dd hmode hop]
      exact deleteCommand_text (e := taken e) _
        (by show e.nlines ≤ 1; omega) (by show (e.rows 0).len = 0; omega)
    have hnone : e.line.len = 0 := by
      by_contra hsome
      exact hmarked ⟨hdirty, hmode, .inr ⟨hop, rfl, hsome⟩⟩
    rw [vimKeyLogical_cc hmode hop]
    exact changeCommand_text (e := taken e) hnone

theorem clear_unmarked (h : Sane e) (hkey : UnmarkedKey e k) :
    (vimKeyLogical w e k).2.text ≠ e.text ∧ (vimKeyLogical w e k).2.dirty = false := by
  obtain ⟨hdirty, hmode, ⟨hop, rfl, hsome⟩ | ⟨hop, rfl, hsome⟩⟩ := hkey
  · rw [vimKeyLogical_dd hmode hop]
    constructor
    · apply deleteCommand_text_ne (e := taken e)
      · split <;> omega
      · exact h.valid
      · exact hsome
    · rw [(deleteCommand_same _ _).2]
      exact (pushUndo_pushed _).dirty.trans hdirty
  · rw [vimKeyLogical_cc hmode hop]
    constructor
    · exact changeCommand_text_ne (e := taken e) h.cy hsome
    · exact (pushUndo_pushed _).dirty.trans hdirty

/-! ## The dirty flag -/

/-- The text that was last saved, or loaded. -/
def base (loaded : Text) : List Event → Text
  | [] => loaded
  | .saved t :: _ => t
  | .snapshot _ :: log => base loaded log
  | .undone :: log => base loaded log

/-- A document that differs from it is marked. -/
def Marked (loaded : Text) (e : Editor) : Prop := e.text ≠ base loaded e.log → e.dirty = true

variable {loaded : Text}

theorem Marked.of_edited (h : Marked loaded e) (hedit : Edited e e') : Marked loaded e' := by
  intro hne
  rw [hedit.log] at hne
  rcases hedit.marked with hdirty | ⟨hdoc, hdirty⟩
  · exact hdirty
  · rw [hdirty]
    apply h
    rwa [hdoc] at hne

theorem Marked.of_still (h : Marked loaded e) (hstill : Still e e') : Marked loaded e' :=
  h.of_edited hstill.edited

theorem Marked.push (h : Marked loaded e) : Marked loaded (pushUndo e) := by
  have hp := pushUndo_pushed e
  intro hne
  rw [hp.dirty]
  apply h
  rwa [hp.log, hp.doc] at hne

/-- An undo does nothing, or it marks the document. -/
theorem doUndo_cases (e : Editor) : e.undoCount = 0 ∧ Still e (doUndo e) ∨
    e.undoCount ≠ 0 ∧ (doUndo e).dirty = true ∧ (doUndo e).filepath = e.filepath ∧
      (doUndo e).log = .undone :: e.log := by
  unfold doUndo
  split
  · rename_i hnone
    exact .inl ⟨hnone, (setStatus_calm _ _).toStill⟩
  · rename_i hsome
    exact .inr ⟨hsome, rfl, (clampCx_calm _).filepath, (clampCx_calm _).log⟩

/-- What a save does: nothing, or the document is on the disk, or the write has failed. -/
theorem saveFile_cases (w : Answer) (e : Editor) :
    (saveFile w e).1 = false ∧ (saveFile w e).2 = e ∧ (e.serializeInto edScrMax).length = 0 ∨
    (saveFile w e).1 = true ∧ w.ok = true ∧
      (saveFile w e).2 = { e with disk := w.disk, dirty := false, log := .saved e.text :: e.log } ∨
    (saveFile w e).1 = false ∧ w.ok = false ∧ (saveFile w e).2 = { e with disk := w.disk } := by
  unfold saveFile
  dsimp only
  split
  · rename_i hlen
    exact .inl ⟨rfl, rfl, hlen⟩
  split
  · rename_i hok
    exact .inr (.inl ⟨rfl, hok, rfl⟩)
  · rename_i hok
    exact .inr (.inr ⟨rfl, by simpa using hok, rfl⟩)

theorem Marked.save (h : Marked loaded e) : Marked loaded (saveFile w e).2 := by
  rcases saveFile_cases w e with ⟨_, heq, _⟩ | ⟨_, _, heq⟩ | ⟨_, _, heq⟩
  · rw [heq]
    exact h
  · rw [heq]
    exact fun hne => absurd rfl hne
  · rw [heq]
    exact h

theorem Marked.key (h : Marked loaded e) (hkey : ¬ UnmarkedKey e k) :
    Marked loaded (vimKeyLogical w e k).2 := by
  rcases vimKeyLogical_did w e k with ⟨_, hedit⟩ | ⟨_, hdid⟩
  · exact h.of_edited hedit
  cases hdid with
  | still hs _ => exact h.of_still hs
  | pushed m hm hsame hmark =>
    rcases hmark with hedit | ⟨hc, hdirty⟩
    · exact (h.of_still hm).push.of_edited hedit
    intro hne
    rw [hdirty]
    rcases clear_still (w := w) hc hkey with hd | htext
    · exact hd
    · apply h
      rwa [htext, hsame.log, (pushUndo_pushed m).log, base, hm.log] at hne
  | undone m hm hs _ =>
    rcases doUndo_cases m with ⟨_, hstill⟩ | ⟨_, hdirty, _⟩
    · exact h.of_still ((hm.trans hstill).trans hs)
    · exact fun _ => hs.dirty.trans hdirty
  | saved m hm hs _ => exact (h.of_still hm).save.of_still hs

/-! ## Bytes -/

/-- The byte clears lines of an unmarked document that are not empty. -/
def Unmarked (e : Editor) (byte : UInt8) : Prop := e.keyEs = .ground ∧ UnmarkedKey e byte.toNat

/-- The inputs that mark what they change. -/
def Input.Marks (e : Editor) : Input → Prop
  | .key byte _ => ¬ Unmarked e byte
  | _ => True

theorem unmarkedKey_plainKey {byte : UInt8} (h : UnmarkedKey e (plainKey byte.toNat)) :
    UnmarkedKey e byte.toNat := by
  obtain ⟨hdirty, hmode, ⟨hop, hk, hsome⟩ | ⟨hop, hk, hsome⟩⟩ := h
  · exact ⟨hdirty, hmode, .inl ⟨hop, (plainKey_letter (by decide)).mp hk, hsome⟩⟩
  · exact ⟨hdirty, hmode, .inr ⟨hop, (plainKey_letter (by decide)).mp hk, hsome⟩⟩

theorem not_unmarkedKey_escape (h : Sane e) (k : Nat) : ¬ UnmarkedKey (handleEscape e) k := by
  have hnone := handleEscape_pending h
  rintro ⟨_, _, ⟨hop, _⟩ | ⟨hop, _⟩⟩ <;> cases hnone.symm.trans hop

theorem not_unmarkedKey_csi (hk : keyUp ≤ k ∧ k < keyEnter) : ¬ UnmarkedKey e k := by
  rintro ⟨_, _, ⟨_, rfl, _⟩ | ⟨_, rfl, _⟩⟩ <;> exact absurd hk (by decide)

/-- An input is a key, behind something that does not matter, or does not matter itself. -/
theorem take_keys (e : Editor) (i : Input) :
    Still e (take e i).2 ∨ ∃ byte w m k, i = .key byte w ∧ Still e m ∧
      (take e i).2 = (vimKeyLogical w m k).2 ∧
      (Sane e → Sane m ∧ (UnmarkedKey m k → Unmarked e byte)) := by
  have hview : Still e { e with keyEs := .ground } := .of_eq rfl
  have hground : Sane e → Sane { e with keyEs := .ground } := fun h => h
  have hescaped : Still e (handleEscape { e with keyEs := .ground }) :=
    hview.trans (handleEscape_still _)
  cases i with
  | key byte w =>
    cases editorVimKey_keys w e byte with
    | none es csi _ heq => exact .inl (by rw [take, heq]; exact .of_eq rfl)
    | plain hes heq =>
      exact .inr ⟨byte, w, e, _, rfl, Still.refl e, congrArg Prod.snd heq, fun h =>
        ⟨h, fun hkey => ⟨hes, unmarkedKey_plainKey hkey⟩⟩⟩
    | escaped hes heq =>
      exact .inr ⟨byte, w, _, _, rfl, hescaped, congrArg Prod.snd heq, fun h =>
        ⟨handleEscape_sane (hground h), fun hkey =>
          absurd hkey (not_unmarkedKey_escape (hground h) _)⟩⟩
    | csi hes k hk heq =>
      exact .inr ⟨byte, w, _, k, rfl, hview, congrArg Prod.snd heq, fun h =>
        ⟨hground h, fun hkey => absurd hkey (not_unmarkedKey_csi hk)⟩⟩
  | flush w =>
    left
    show Still e (editorVimFlush w e).2
    unfold editorVimFlush
    split
    · exact hescaped
    · exact Still.refl e
  | draw rows => exact .inl (.of_eq rfl)
  | close => exact .inl (Still.refl e)

theorem Marked.take {i : Input} (h : Marked loaded e) (hsane : Sane e) (hi : i.Marks e) :
    Marked loaded (take e i).2 := by
  rcases take_keys e i with hstill | ⟨byte, w, m, k, rfl, hstill, heq, hm⟩
  · exact h.of_still hstill
  · rw [heq]
    exact (h.of_still hstill).key fun hkey => hi ((hm hsane).2 hkey)

/-- A byte that clears lines without a mark leaves a change that is not marked. -/
theorem unmarked_take {byte : UInt8} (h : Marked loaded e) (hsane : Sane e)
    (hbyte : Unmarked e byte) :
    ¬ Marked loaded (take e (.key byte w)).2 := by
  obtain ⟨hes, hkey⟩ := hbyte
  obtain ⟨hplain, hesc⟩ : plainKey byte.toNat = byte.toNat ∧ byte.toNat ≠ 27 := by
    obtain ⟨_, _, ⟨_, hk, _⟩ | ⟨_, hk, _⟩⟩ := hkey <;> rw [hk] <;> decide
  have heq : editorVimKey w e byte = vimKeyLogical w e byte.toNat := by
    unfold editorVimKey
    simp only [hes, if_neg hesc, hplain]
  show ¬ Marked loaded (editorVimKey w e byte).2
  rw [heq]
  obtain ⟨hne, hdirty⟩ := clear_unmarked (w := w) hsane hkey
  -- it was what had been saved, since it was not marked
  have hbase : e.text = base loaded e.log := by
    by_contra hdiff
    exact Bool.noConfusion (hkey.1.symm.trans (h hdiff))
  have hlog : base loaded (vimKeyLogical w e byte.toNat).2.log = base loaded e.log := by
    obtain ⟨_, hmode, ⟨hop, hk, _⟩ | ⟨hop, hk, _⟩⟩ := hkey
    · rw [hk, vimKeyLogical_dd hmode hop, (deleteCommand_same _ _).1.log, (pushUndo_pushed _).log]
      rfl
    · rw [hk, vimKeyLogical_cc hmode hop]
      show base loaded (pushUndo _).log = _
      rw [(pushUndo_pushed _).log]
      rfl
  intro hmarked
  have htrue := hmarked (by rw [hlog, ← hbase]; exact hne)
  exact Bool.noConfusion (hdirty.symm.trans htrue)

/-- **The dirty flag**: in every state that is reached without a `dd` or `cc` that clears lines of
an unmarked document, a document that differs from what was loaded or saved is marked; and a next
input keeps this if and only if it is no such command. -/
theorem dirty_flag (h : Reached (fun e i => i.Fits e ∧ i.Marks e) disk path e) :
    Marked (loadFile (disk path)).text e ∧
    ∀ i : Input, i.Fits e → (Marked (loadFile (disk path)).text (take e i).2 ↔ i.Marks e) := by
  have hsane := h.sane fun hi => hi.1
  have hmarked : Marked (loadFile (disk path)).text e := by
    induction h with
    | opened => exact fun hne => absurd rfl hne
    | step i hreached hi ih =>
      have hbefore := hreached.sane fun hi => hi.1
      exact (ih hbefore).take hbefore hi.2
  refine ⟨hmarked, fun i _ => ⟨?_, fun hi => hmarked.take hsane hi⟩⟩
  intro hafter
  cases i with
  | key byte w => exact fun hbyte => unmarked_take hmarked hsane hbyte hafter
  | flush | draw | close => trivial

/-- A disk with the one line `a` in every file. -/
def lineDisk : Disk := uniformDisk [97, 10]

/-- The editor behind some keys there. -/
def lineEditor (bytes : List UInt8) : Editor := feed idleAnswer (editorOpen lineDisk [47, 97]) bytes

/-- `x` on that line. -/
theorem dirty_flag_delete : ∃ e, Reached (fun e i => i.Fits e ∧ i.Marks e) lineDisk [47, 97] e ∧
    e.text ≠ base (loadFile (lineDisk [47, 97])).text e.log ∧ e.dirty = true := by
  have hreached : Reached (fun e i => i.Fits e ∧ i.Marks e) lineDisk [47, 97] (lineEditor [120]) := by
    apply Reached.opened.feed
    intro e b hb
    rw [mem_singleton.mp hb]
    refine ⟨fun hpast => absurd hpast.1 (by decide), ?_⟩
    rintro ⟨_, _, _, ⟨_, hk, _⟩ | ⟨_, hk, _⟩⟩ <;> exact absurd hk (by decide)
  have hne : (lineEditor [120]).text ≠
      base (loadFile (lineDisk [47, 97])).text (lineEditor [120]).log := by
    decide +kernel
  exact ⟨_, hreached, hne, (dirty_flag hreached).1 hne⟩

/-- `dd` on that line. -/
theorem delete_unmarked : ∃ e, Reached (fun e i => i.Fits e) lineDisk [47, 97] e ∧
    e.text ≠ base (loadFile (lineDisk [47, 97])).text e.log ∧ e.dirty = false := by
  have hreached : Reached (fun e i => i.Fits e) lineDisk [47, 97] (lineEditor [100, 100]) :=
    reached_feed (by decide +kernel)
  have hstate : (lineEditor [100, 100]).text ≠
      base (loadFile (lineDisk [47, 97])).text (lineEditor [100, 100]).log ∧
      (lineEditor [100, 100]).dirty = false := by
    decide +kernel
  exact ⟨_, hreached, hstate.1, hstate.2⟩

end JuampiOs.Edit
