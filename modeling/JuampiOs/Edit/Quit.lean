import JuampiOs.Edit.Saved

/-!
# What the window may discard

A session of `ui_edit` that ends without a `!` leaves the document on the disk
(`no_silent_loss`), in every run in which

* `dd` and `cc` clear no line of an unmarked document, which they do not mark,
* no `:wq`, `:x` or other command line that writes and quits fails to write a marked document,
  since it quits all the same,
* the window is not closed on a marked document,
* a write that fails on an unmarked document leaves its file alone, and
* the path fits in `filepath`.

The document on the disk is the one that opening the file again would show.
-/

namespace JuampiOs.Edit

open Lib List

variable {e e' : Editor} {w : Answer} {disk : Disk} {path : List UInt8}

/-! ## Saving -/

theorem length_serialize_le {t : Text} (h : ∀ l ∈ t, l.length ≤ edMaxCols) :
    (serialize t).length ≤ t.length * (edMaxCols + 1) := by
  induction t with
  | nil => exact Nat.zero_le _
  | cons l t ih =>
    have hl := h l mem_cons_self
    have ht := ih fun x hx => h x (mem_cons_of_mem _ hx)
    rw [serialize, flatMap_cons, length_append, length_append, length_singleton,
      length_cons, Nat.succ_mul]
    unfold serialize at ht
    omega

theorem serialize_fits {d : Document} (h : d.Valid) : (serialize d.text).length ≤ edScrMax := by
  have hlen := length_serialize_le fun l hl => (h.text.line l hl).1
  have hle := Nat.mul_le_mul_right (edMaxCols + 1) h.text.le
  have hcap : edMaxLines * (edMaxCols + 1) ≤ edScrMax := by decide
  omega

theorem serializeInto_ne {d : Document} (h : d.Valid) : (d.serializeInto edScrMax).length ≠ 0 := by
  rw [Document.serializeInto_eq, if_neg (Nat.not_lt.mpr (serialize_fits h))]
  exact fun hzero => h.serialize_ne (length_eq_zero_iff.mp hzero)

/-- The file that is edited shows the document. -/
def Clean (path : List UInt8) (e : Editor) : Prop := (loadFile (e.disk path)).text = e.text

/-- An unmarked document is on the disk. -/
structure Backed (path : List UInt8) (e : Editor) : Prop where
  filepath : e.filepath = path
  clean : e.dirty = false → Clean path e

/-- A write that succeeds puts the document into the file. -/
def Honest (w : Answer) (e : Editor) : Prop := w.ok = true → w.disk e.filepath = some (serialize e.text)

/-- A write that fails leaves the file of an unmarked document alone. -/
def Spares (path : List UInt8) (w : Answer) (e : Editor) : Prop :=
  w.ok = false → e.dirty = false → w.disk path = e.disk path

theorem Backed.of_edited (h : Backed path e) (hedit : Edited e e') : Backed path e' := by
  refine ⟨hedit.filepath.trans h.filepath, ?_⟩
  intro hclean
  rcases hedit.marked with hdirty | ⟨hdoc, hdirty⟩
  · exact Bool.noConfusion (hclean.symm.trans hdirty)
  · unfold Clean
    rw [hedit.disk, hdoc]
    exact h.clean (hdirty.symm.trans hclean)

theorem Backed.of_still (h : Backed path e) (hstill : Still e e') : Backed path e' :=
  h.of_edited hstill.edited

theorem Backed.push (h : Backed path e) : Backed path (pushUndo e) := by
  have hp := pushUndo_pushed e
  refine ⟨hp.filepath.trans h.filepath, ?_⟩
  intro hclean
  unfold Clean
  rw [hp.disk, hp.doc]
  exact h.clean (hp.dirty.symm.trans hclean)

theorem Honest.of_still (h : Honest w e) (hstill : Still e e') : Honest w e' := by
  intro hok
  rw [hstill.filepath, hstill.text]
  exact h hok

theorem Spares.of_still (h : Spares path w e) (hstill : Still e e') : Spares path w e' := by
  intro hok hdirty
  rw [hstill.disk]
  exact h hok (hstill.dirty.symm.trans hdirty)

theorem saveFile_clean (hvalid : e.toDocument.Valid) (h : Backed path e) (hhonest : Honest w e)
    (hok : (saveFile w e).1 = true) : Clean path (saveFile w e).2 := by
  rcases saveFile_cases w e with ⟨hfalse, _⟩ | ⟨_, hw, heq⟩ | ⟨hfalse, _⟩
  · exact Bool.noConfusion (hfalse.symm.trans hok)
  · rw [heq]
    show (loadFile (w.disk path)).text = e.text
    rw [← h.filepath, hhonest hw]
    exact text_bufferFromText_serialize _ hvalid.text
  · exact Bool.noConfusion (hfalse.symm.trans hok)

theorem Backed.save (h : Backed path e) (hvalid : e.toDocument.Valid) (hhonest : Honest w e)
    (hspares : Spares path w e) :
    Backed path (saveFile w e).2 := by
  rcases saveFile_cases w e with ⟨_, heq, _⟩ | ⟨hok, _, heq⟩ | ⟨_, hw, heq⟩
  · rw [heq]
    exact h
  · refine ⟨by rw [heq]; exact h.filepath, fun _ => saveFile_clean hvalid h hhonest hok⟩
  rw [heq]
  refine ⟨h.filepath, ?_⟩
  intro hclean
  show (loadFile (w.disk path)).text = e.text
  rw [hspares hw hclean]
  exact h.clean hclean

theorem Backed.key {k : Nat} (h : Backed path e) (hsane : Sane e) (hhonest : Honest w e)
    (hspares : Spares path w e) (hkey : ¬ UnmarkedKey e k) : Backed path
    (vimKeyLogical w e k).2 := by
  rcases vimKeyLogical_did w e k with ⟨_, hedit⟩ | ⟨_, hdid⟩
  · exact h.of_edited hedit
  cases hdid with
  | still hs _ => exact h.of_still hs
  | pushed m hm hsame hmark =>
    rcases hmark with hedit | ⟨hc, hdirty⟩
    · exact (h.of_still hm).push.of_edited hedit
    have hp := pushUndo_pushed m
    refine ⟨hsame.filepath.trans (hp.filepath.trans (hm.filepath.trans h.filepath)), ?_⟩
    intro hclean
    have hbefore : e.dirty = false := hdirty.symm.trans hclean
    rcases clear_still (w := w) hc hkey with hd | htext
    · exact Bool.noConfusion (hbefore.symm.trans hd)
    · unfold Clean
      rw [hsame.disk, hp.disk, hm.disk, htext]
      exact h.clean hbefore
  | undone m hm hs _ =>
    rcases doUndo_cases m with ⟨_, hstill⟩ | ⟨_, hdirty, hfile, _⟩
    · exact h.of_still ((hm.trans hstill).trans hs)
    · refine ⟨hs.filepath.trans (hfile.trans (hm.filepath.trans h.filepath)), ?_⟩
      intro hclean
      exact Bool.noConfusion (hclean.symm.trans (hs.dirty.trans hdirty))
  | saved m hm hs _ =>
    have hvalid : m.toDocument.Valid := hm.doc ▸ hsane.valid
    exact ((h.of_still hm).save hvalid (hhonest.of_still hm) (hspares.of_still hm)).of_still hs

/-! ## Endings -/

theorem handleCommand_ends {cnt : Nat} {cmd : Command} (h : (handleCommand w e cnt cmd).1 ≠ .cont) :
    (saveFile w e).1 = true ∧ (handleCommand w e cnt cmd).2 = (saveFile w e).2 ∨
    e.dirty = false ∧ (handleCommand w e cnt cmd).2 = e := by
  cases cmd with
  | saveRun =>
    rw [handleCommand] at h ⊢
    dsimp only at h ⊢
    split at h
    · rename_i hok
      rw [if_pos hok]
      exact .inl ⟨hok, rfl⟩
    · exact absurd rfl h
  | quit =>
    rw [handleCommand] at h ⊢
    split at h
    · exact absurd rfl h
    · rename_i hdirty
      rw [if_neg hdirty]
      exact .inr ⟨by simpa using hdirty, rfl⟩
  | _ => exact absurd rfl h

theorem handleNormal_ends {k : Nat} (h : (handleNormal w e k).1 ≠ .cont) :
    (saveFile w { e with vcount := 0 }).1 = true ∧
      (handleNormal w e k).2 = (saveFile w { e with vcount := 0 }).2 ∨
    e.dirty = false ∧ (handleNormal w e k).2 = { e with vcount := 0 } := by
  unfold handleNormal at h ⊢
  split at h
  · exact absurd rfl h
  rename_i hdigit
  rw [if_neg hdigit]
  dsimp only at h ⊢
  split at h
  · exact absurd rfl h
  · exact handleCommand_ends h

/-- The command line that writes and quits, and is not forced to. -/
def WritesAndQuits (c : Line) : Prop :=
  isNumber c = false ∧ wantsWrite c = true ∧ wantsQuit c = true ∧ isForced c = false

theorem runCommand_ends (hsane : Sane e) (h : Backed path e) (hhonest : Honest w e)
    (hspares : Spares path w e) (hforced : isForced e.vcmd = false)
    (hfail : WritesAndQuits e.vcmd → w.ok = false → e.dirty = false)
    (hend : (runCommand w e).1 ≠ .cont) : Clean path (runCommand w e).2 := by
  have hsaved := h.save hsane.valid hhonest hspares
  unfold runCommand at hend ⊢
  dsimp only at hend ⊢
  split at hend
  · exact absurd rfl hend
  rename_i hnumber
  rw [if_neg hnumber]
  by_cases hwrite : wantsWrite e.vcmd = true
  · rw [if_pos hwrite] at hend ⊢
    have hview : Still (saveFile w e).2 (save w e) := (setStatus_calm _ _).toStill
    have hback : Backed path (save w e) := hsaved.of_still hview
    split
    · rename_i hrun
      rw [Bool.and_eq_true, Bool.and_eq_true] at hrun
      exact hback.clean (by simpa using hrun.2.1)
    rename_i hrun
    rw [if_neg hrun] at hend
    split at hend
    · rename_i hquit
      rw [if_pos hquit, if_neg (by simp [hwrite])]
      -- it quits whether or not the write has succeeded
      by_cases hdirty : (save w e).dirty = true
      · rcases saveFile_cases w e with ⟨_, _, hlen⟩ | ⟨hok, _, _⟩ | ⟨_, hw, heq⟩
        · exact absurd hlen (serializeInto_ne hsane.valid)
        · exact saveFile_clean hsane.valid h hhonest hok
        · have hsame : (save w e).dirty = e.dirty := by
            rw [hview.dirty, heq]
          have hclean := hfail ⟨by simpa using hnumber, hwrite, hquit, hforced⟩ hw
          exact Bool.noConfusion (hclean.symm.trans (hsame.symm.trans hdirty))
      · exact hback.clean (by simpa using hdirty)
    · split at hend <;> exact absurd rfl hend
  · rw [if_neg hwrite] at hend ⊢
    rw [if_neg (by simp [hwrite])] at hend ⊢
    split at hend
    · rename_i hquit
      rw [if_pos hquit]
      split at hend
      · exact absurd rfl hend
      · rename_i hdirty
        rw [if_neg hdirty]
        simp only [hwrite, hforced, Bool.not_false, Bool.and_true] at hdirty
        exact h.clean (by simpa using hdirty)
    · split at hend <;> exact absurd rfl hend

/-- The key enters the command line. -/
def EntersKey (e : Editor) (k : Nat) : Prop :=
  e.vmode = .command ∧ (k = keyEnter ∨ k = '\r'.toNat ∨ k = '\n'.toNat)

theorem key_ends {k : Nat} (hsane : Sane e) (h : Backed path e) (hhonest : Honest w e)
    (hspares : Spares path w e) (hforced : EntersKey e k → isForced e.vcmd = false)
    (hfail : EntersKey e k → WritesAndQuits e.vcmd → w.ok = false → e.dirty = false)
    (hend : (vimKeyLogical w e k).1 ≠ .cont) : Clean path (vimKeyLogical w e k).2 := by
  by_cases hk : k = 27
  · rw [hk] at hend
    exact absurd rfl hend
  rcases mode_cases e with hmode | hmode | hmode
  · rw [vimKeyLogical_insert hk hmode] at hend
    exact absurd rfl hend
  · rw [vimKeyLogical_line hk hmode] at hend ⊢
    unfold handleLineMode at hend ⊢
    split at hend
    · exact absurd rfl hend
    rename_i hesc
    rw [if_neg hesc]
    split at hend
    · rename_i henter
      rw [if_pos henter]
      split at hend
      · exact absurd rfl hend
      rename_i hsearch
      rw [if_neg hsearch]
      have henters : EntersKey e k := ⟨hmode.resolve_right hsearch, henter⟩
      exact runCommand_ends (e := { e with vmode := .normal }) hsane.toNormal
        ⟨h.filepath, h.clean⟩ hhonest hspares (hforced henters) (hfail henters) hend
    · split at hend <;> split at hend <;> exact absurd rfl hend
  · rw [vimKeyLogical_normal hk hmode] at hend ⊢
    rcases handleNormal_ends hend with ⟨hok, heq⟩ | ⟨hdirty, heq⟩
    · rw [heq]
      exact saveFile_clean (e := { e with statusMsg := none, vcount := 0 }) hsane.valid
        ⟨h.filepath, h.clean⟩ hhonest hok
    · rw [heq]
      exact h.clean hdirty

/-! ## Sessions -/

/-- The command line is entered, in a byte. -/
def Enters (e : Editor) (byte : UInt8) : Prop :=
  e.keyEs = .ground ∧ e.vmode = .command ∧ plainKey byte.toNat = keyEnter

theorem enters_of_plainKey {byte : UInt8} (hes : e.keyEs = .ground)
    (h : EntersKey e (plainKey byte.toNat)) : Enters e byte := by
  refine ⟨hes, h.1, ?_⟩
  rcases h.2 with henter | hother
  · exact henter
  unfold plainKey at hother ⊢
  split
  · rfl
  rename_i hline
  rw [if_neg hline] at hother
  split at hother
  · exact absurd hother (by decide)
  · exact absurd hother hline

/-- A command line with a `!` in it is entered. -/
def Input.Forced (e : Editor) : Input → Prop
  | .key byte _ => Enters e byte ∧ isForced e.vcmd = true
  | _ => False

/-- What `ext2_write_file` promises. -/
def Input.Honest (e : Editor) : Input → Prop
  | .key _ w => Edit.Honest w e
  | _ => True

/-- The inputs that discard nothing. -/
def Input.Spares (path : List UInt8) (e : Editor) : Input → Prop
  | .key byte w => Edit.Spares path w e ∧
      (Enters e byte → WritesAndQuits e.vcmd → w.ok = false → e.dirty = false)
  | .close => e.dirty = false
  | _ => True

/-- The steps of a session in which nothing is discarded. -/
structure Careful (path : List UInt8) (e : Editor) (i : Input) : Prop where
  fits : i.Fits e
  marks : i.Marks e
  honest : i.Honest e
  spares : i.Spares path e

theorem Backed.take {i : Input} (h : Backed path e) (hsane : Sane e) (hi : Careful path e i) :
    Backed path (take e i).2 := by
  rcases take_keys e i with hstill | ⟨byte, w, m, k, rfl, hstill, heq, hm⟩
  · exact h.of_still hstill
  obtain ⟨hm, hkey⟩ := hm hsane
  have hhonest : Edit.Honest w e := hi.honest
  rw [heq]
  exact (h.of_still hstill).key hm (hhonest.of_still hstill) (hi.spares.1.of_still hstill)
    fun hk => hi.marks (hkey hk)

theorem Reached.backed (hpath : path.length ≤ 127) (h : Reached (Careful path) disk path e) :
    Backed path e := by
  induction h with
  | opened => exact ⟨take_of_length_le hpath, fun _ => rfl⟩
  | step i hreached hi ih => exact ih.take (hreached.sane fun hi => hi.fits) hi

/-- **Nothing is discarded in silence**: whatever is typed, when the session ends without a `!` the
document is on the disk. -/
theorem no_silent_loss (hpath : path.length ≤ 127) (h : Reached (Careful path) disk path e)
    {i : Input} (hi : Careful path e i) (hend : (take e i).1 ≠ .cont) (hforced : ¬ i.Forced e) :
    Clean path (take e i).2 := by
  have hsane := h.sane fun hi => hi.fits
  have hback := h.backed hpath
  cases i with
  | key byte w =>
    change (editorVimKey w e byte).1 ≠ .cont at hend
    show Clean path (editorVimKey w e byte).2
    have hground : Sane { e with keyEs := .ground } := hsane
    cases editorVimKey_keys w e byte with
    | none es csi _ heq =>
      rw [heq] at hend
      exact absurd rfl hend
    | plain hes heq =>
      rw [heq] at hend ⊢
      refine key_ends hsane hback hi.honest hi.spares.1 ?_ ?_ hend
      · intro henters
        by_contra hbang
        exact hforced ⟨enters_of_plainKey hes henters, by simpa using hbang⟩
      · exact fun henters => hi.spares.2 (enters_of_plainKey hes henters)
    | escaped hes heq =>
      rw [heq] at hend ⊢
      have hview : Still e { e with keyEs := .ground } := .of_eq rfl
      have hstill := hview.trans (handleEscape_still _)
      -- the Esc has left the command line
      have hleft : ∀ k, ¬ EntersKey (handleEscape { e with keyEs := .ground }) k := by
        rintro k ⟨hmode, _⟩
        rw [(handleEscape_frame _).2.2.2] at hmode
        cases hmode
      have hhonest : Edit.Honest w e := hi.honest
      exact key_ends (handleEscape_sane hground) (hback.of_still hstill) (hhonest.of_still hstill)
        (hi.spares.1.of_still hstill) (fun henters => absurd henters (hleft _))
        (fun henters => absurd henters (hleft _)) hend
    | csi hes k hk heq =>
      rw [heq] at hend ⊢
      have hleft : ¬ EntersKey { e with keyEs := .ground } k := by
        rintro ⟨_, rfl | rfl | rfl⟩
        · exact absurd hk (by decide)
        · exact absurd hk (by decide)
        · exact absurd hk (by decide)
      exact key_ends hground ⟨hback.filepath, hback.clean⟩ hi.honest hi.spares.1
        (fun henters => absurd henters hleft) (fun henters => absurd henters hleft) hend
  | flush w =>
    change (editorVimFlush w e).1 ≠ .cont at hend
    unfold editorVimFlush at hend
    split at hend <;> exact absurd rfl hend
  | draw rows => exact absurd rfl hend
  | close => exact hback.clean hi.spares

/-- Every write fails and leaves the disk alone. -/
def failing : Answer := ⟨false, lineDisk⟩

/-- `x` and a `:wq` that writes the line that is left. -/
theorem no_silent_loss_written : ∃ e, Reached (Careful [47, 97]) lineDisk [47, 97] e ∧
    e.dirty = true ∧ e.vcmd = [119, 113] ∧
    let i : Input := .key 13 ⟨true, uniformDisk (serialize e.text)⟩
    (take e i).1 = .quit ∧ Clean [47, 97] (take e i).2 := by
  have hstep : ∀ {e : Editor} (b : UInt8), b ∉ [112, 100, 99] →
      Reached (Careful [47, 97]) lineDisk [47, 97] e → e.disk = lineDisk →
      (wantsWrite e.vcmd && wantsQuit e.vcmd) = false →
      Reached (Careful [47, 97]) lineDisk [47, 97] (take e (.key b failing)).2 := by
    intro e b hb h hdisk hvcmd
    have hne : ∀ c ∈ [112, 100, 99], b.toNat ≠ UInt8.toNat c := fun c hc heq =>
      hb (UInt8.toNat.inj heq ▸ hc)
    refine h.step _ ⟨fun hpast => hne 112 (by decide) hpast.1, ?_, (fun hok => nomatch hok), ?_, ?_⟩
    · rintro ⟨_, _, _, ⟨_, hk, _⟩ | ⟨_, hk, _⟩⟩
      · exact hne 100 (by decide) hk
      · exact hne 99 (by decide) hk
    · exact fun _ _ => congrFun hdisk.symm _
    · rintro _ ⟨_, hwrite, hquit, _⟩
      rw [hwrite, hquit] at hvcmd
      cases hvcmd
  have hreached := hstep 113 (by decide) (hstep 119 (by decide) (hstep 58 (by decide)
    (hstep 120 (by decide) .opened rfl rfl) rfl (by decide +kernel)) rfl (by decide +kernel)) rfl
    (by decide +kernel)
  refine ⟨_, hreached, by decide +kernel, by decide +kernel, by decide +kernel, ?_⟩
  refine no_silent_loss (by decide) hreached ⟨fun hpast => absurd hpast.1 (by decide), ?_,
    fun _ => rfl, (fun hok => nomatch hok), fun _ _ hok => nomatch hok⟩ (by decide +kernel) ?_
  · rintro ⟨_, _, _, ⟨_, hk, _⟩ | ⟨_, hk, _⟩⟩ <;> exact absurd hk (by decide)
  · exact fun hforced => absurd hforced.2 (by decide +kernel)

/-- The session ends without a `!`, and the document is not on the disk. -/
def Discards (e : Editor) (i : Input) : Prop :=
  (take e i).1 = .quit ∧ ¬ i.Forced e ∧ ¬ Clean [47, 97] (take e i).2

/-- `dd` and `:q`; `x` and a `:wq` whose write fails; `x` and a click on the title bar. -/
theorem quit_discards :
    (∃ e, Reached (fun e i => i.Fits e ∧ i.Honest e) lineDisk [47, 97] e ∧ e.vcmd = [113] ∧
      Discards e (.key 13 failing)) ∧
    (∃ e, Reached (fun e i => i.Fits e ∧ i.Honest e) lineDisk [47, 97] e ∧ e.vcmd = [119, 113] ∧
      Discards e (.key 13 failing)) ∧
    ∃ e, Reached (fun e i => i.Fits e ∧ i.Honest e) lineDisk [47, 97] e ∧ Discards e .close := by
  have hreached : ∀ bytes : List UInt8, (∀ b ∈ bytes, b.toNat ≠ 'p'.toNat) →
      Reached (fun e i => i.Fits e ∧ i.Honest e) lineDisk [47, 97]
        (feed failing (editorOpen lineDisk [47, 97]) bytes) := by
    intro bytes hbytes
    apply Reached.opened.feed
    intro e b hb
    exact ⟨fun hpast => hbytes b hb hpast.1, fun hok => nomatch hok⟩
  refine ⟨⟨_, hreached [100, 100, 58, 113] (by decide +kernel), by decide +kernel,
      by decide +kernel, ?_, by unfold Clean; decide +kernel⟩,
    ⟨_, hreached [120, 58, 119, 113] (by decide +kernel), by decide +kernel,
      by decide +kernel, ?_, by unfold Clean; decide +kernel⟩,
    ⟨_, hreached [120] (by decide +kernel), rfl, id, by unfold Clean; decide +kernel⟩⟩
  · rintro ⟨_, hbang⟩
    exact absurd hbang (by decide +kernel)
  · rintro ⟨_, hbang⟩
    exact absurd hbang (by decide +kernel)

end JuampiOs.Edit
