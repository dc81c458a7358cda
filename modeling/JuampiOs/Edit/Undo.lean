import JuampiOs.Edit.Saved

/-!
# Undo

`pending` is the abstract undo list: the texts `push_undo` was called on, latest first, without
those that have been undone. The ring holds the serializations of the latest `held` of them
(`Ring.step`), and what it holds is read back as it was. So `u` restores the latest, and `k` of
them the `k`-th (`undo_restores`), for every run in which each snapshot fits in its slot and the
document stays below `ED_MAX_LINES` lines.

That there is a snapshot to go back to: a command group, from a key outside insert mode to the
end of insert mode, that changes the text has taken exactly one, of the text before it.
-/

namespace JuampiOs.Edit

open Lib Function List

variable {e e' : Editor} {w : Answer} {disk : Disk} {path : List UInt8}

/-! ## The abstract undo list -/

/-- The snapshots that have not been undone, latest first. -/
def pending : List Event → List Text
  | [] => []
  | .snapshot t :: log => t :: pending log
  | .undone :: log => (pending log).tail
  | .saved _ :: log => pending log

/-- How many of them are held. -/
def held : List Event → Nat
  | [] => 0
  | .snapshot _ :: log => min (held log + 1) edUndoMax
  | .undone :: log => held log - 1
  | .saved _ :: log => held log

theorem held_le (log : List Event) : held log ≤ edUndoMax := by
  induction log with
  | nil => exact Nat.zero_le _
  | cons ev log ih =>
    cases ev with
    | snapshot t => exact min_le_right _ _
    | undone => exact le_trans (Nat.sub_le _ _) ih
    | saved t => exact ih

/-! ## The ring -/

/-- The slot of the `k`-th latest snapshot. -/
def slotOf (head k : Nat) : Nat := (head + edUndoMax - 1 - k) % edUndoMax

/-- The ring holds what it should, as text that is read back. -/
structure Ring (e : Editor) : Prop where
  head : e.undoHead < edUndoMax
  count : e.undoCount = held e.log
  slot : ∀ k < held e.log, ∃ t, (pending e.log)[k]? = some t ∧ TextOk t ∧
    (e.undo (slotOf e.undoHead k)).text = serialize t

theorem Ring.of_same (h : Ring e) (hsame : Same e e') : Ring e' := by
  have hring := hsame.ring
  unfold Editor.ring at hring
  rw [Prod.mk.injEq, Prod.mk.injEq] at hring
  obtain ⟨hundo, hhead, hcount⟩ := hring
  exact ⟨by rw [hhead]; exact h.head, by rw [hcount, hsame.log]; exact h.count,
    by rw [hsame.log, hundo, hhead]; exact h.slot⟩

theorem Ring.push (h : Ring e) (hvalid : e.toDocument.Valid)
    (hfits : (serialize e.text).length ≤ edUndoCap) : Ring (pushUndo e) := by
  have hbytes : e.serializeInto edUndoCap = serialize e.text := by
    rw [Document.serializeInto_eq, if_neg (not_lt.mpr hfits)]
  have hne : (serialize e.text).length ≠ 0 := fun hzero =>
    hvalid.serialize_ne (length_eq_zero_iff.mp hzero)
  have hhead := h.head
  have hle := held_le e.log
  unfold pushUndo
  rw [hbytes, if_neg hne]
  refine ⟨Nat.mod_lt _ (by decide), ?_, ?_⟩
  · show (if e.undoCount < edUndoMax then e.undoCount + 1 else e.undoCount) =
      (min (held e.log + 1) edUndoMax : Nat)
    rw [h.count]
    split <;> omega
  · intro k hk
    have hk' : k < min (held e.log + 1) edUndoMax := hk
    cases k with
    | zero =>
      refine ⟨e.text, rfl, hvalid.text, ?_⟩
      have hslot : slotOf ((e.undoHead + 1) % edUndoMax) 0 = e.undoHead := by
        unfold slotOf edUndoMax at *
        omega
      show (update e.undo e.undoHead _ (slotOf ((e.undoHead + 1) % edUndoMax) 0)).text = _
      rw [hslot, update_self]
    | succ k =>
      obtain ⟨t, hget, hok, hslot⟩ := h.slot k (by omega)
      refine ⟨t, hget, hok, ?_⟩
      -- the others are where they were, one further back
      have hback : slotOf ((e.undoHead + 1) % edUndoMax) (k + 1) = slotOf e.undoHead k := by
        unfold slotOf edUndoMax at *
        omega
      have hother : slotOf e.undoHead k ≠ e.undoHead := by
        unfold slotOf edUndoMax at *
        omega
      show (update e.undo e.undoHead _ (slotOf ((e.undoHead + 1) % edUndoMax) (k + 1))).text = _
      rw [hback, update_of_ne hother, hslot]

theorem Ring.undo (h : Ring e) (hsome : 0 < held e.log) :
    Ring (doUndo e) ∧ (pending e.log)[0]? = some (doUndo e).text ∧
      (doUndo e).log = .undone :: e.log := by
  have hhead := h.head
  have hle := held_le e.log
  obtain ⟨t, hget, hok, hslot⟩ := h.slot 0 hsome
  have hfirst : slotOf e.undoHead 0 = (e.undoHead + edUndoMax - 1) % edUndoMax := rfl
  rw [hfirst] at hslot
  have hcount : e.undoCount ≠ 0 := by
    rw [h.count]
    omega
  unfold doUndo
  rw [if_neg hcount]
  dsimp only
  generalize hs : e.undo ((e.undoHead + edUndoMax - 1) % edUndoMax) = slot at hslot ⊢
  have hclamp := clampCx_calm { e with
    toDocument := e.bufferFromText slot.text
    undoHead := (e.undoHead + edUndoMax - 1) % edUndoMax
    undoCount := e.undoCount - 1
    cx := slot.cx
    cy := if (e.bufferFromText slot.text).nlines ≤ slot.cy then
      (e.bufferFromText slot.text).nlines - 1 else slot.cy
    log := .undone :: e.log }
  refine ⟨?_, ?_, hclamp.log⟩
  · refine Ring.of_same (e := { e with
      undoHead := (e.undoHead + edUndoMax - 1) % edUndoMax
      undoCount := e.undoCount - 1
      log := .undone :: e.log }) ⟨Nat.mod_lt _ (by decide), ?_, ?_⟩
      ⟨hclamp.filepath, hclamp.disk, hclamp.log, hclamp.ring⟩
    · show e.undoCount - 1 = (held e.log - 1 : Nat)
      rw [h.count]
      omega
    · intro k hk
      have hk' : k < held e.log - 1 := hk
      obtain ⟨t', hget', hok', hslot'⟩ := h.slot (k + 1) (by omega)
      refine ⟨t', ?_, hok', ?_⟩
      · show (pending e.log).tail[k]? = some t'
        rw [getElem?_tail]
        exact hget'
      · have hback : slotOf ((e.undoHead + edUndoMax - 1) % edUndoMax) k =
            slotOf e.undoHead (k + 1) := by
          unfold slotOf edUndoMax at *
          omega
        rw [hback]
        exact hslot'
  · rw [hget]
    congr 1
    rw [hclamp.doc, hslot]
    exact (text_bufferFromText_serialize _ hok).symm

/-! ## Keys -/

theorem Ring.save (h : Ring e) : Ring (saveFile w e).2 := by
  rcases saveFile_cases w e with ⟨_, heq, _⟩ | ⟨_, _, heq⟩ | ⟨_, _, heq⟩
  · rw [heq]
    exact h
  · rw [heq]
    exact ⟨h.head, h.count, h.slot⟩
  · rw [heq]
    exact ⟨h.head, h.count, h.slot⟩

theorem Ring.key {k : Nat} (h : Ring e) (hvalid : e.toDocument.Valid)
    (hfits : ∀ t, .snapshot t ∈ (vimKeyLogical w e k).2.log → (serialize t).length ≤ edUndoCap) :
    Ring (vimKeyLogical w e k).2 := by
  rcases vimKeyLogical_did w e k with ⟨_, hedit⟩ | ⟨_, hdid⟩
  · exact h.of_same hedit.toSame
  cases hdid with
  | still hs _ => exact h.of_same hs.toSame
  | pushed m hm hsame _ =>
    have hfit : (serialize m.text).length ≤ edUndoCap := by
      apply hfits
      rw [hsame.log, (pushUndo_pushed m).log]
      exact mem_cons_self
    exact ((h.of_same hm.toSame).push (by rw [hm.doc]; exact hvalid) hfit).of_same hsame
  | undone m hm hs _ =>
    have hm' := h.of_same hm.toSame
    rcases doUndo_cases m with ⟨_, hstill⟩ | ⟨hsome, _⟩
    · exact hm'.of_same (hstill.trans hs).toSame
    · have hcount := hm'.count
      exact (hm'.undo (by omega)).1.of_same hs.toSame
  | saved m hm hs _ => exact (h.of_same hm.toSame).save.of_same hs.toSame

theorem key_log (w : Answer) (e : Editor) (k : Nat) : ∀ ev ∈ e.log, ev ∈
    (vimKeyLogical w e k).2.log := by
  intro ev hev
  rcases vimKeyLogical_did w e k with ⟨_, hedit⟩ | ⟨_, hdid⟩
  · rw [hedit.log]
    exact hev
  cases hdid with
  | still hs _ =>
    rw [hs.log]
    exact hev
  | pushed m hm hsame _ =>
    rw [hsame.log, (pushUndo_pushed m).log, hm.log]
    exact mem_cons_of_mem _ hev
  | undone m hm hs _ =>
    rw [hs.log]
    rcases doUndo_cases m with ⟨_, hstill⟩ | ⟨_, _, _, hlog⟩
    · rw [hstill.log, hm.log]
      exact hev
    · rw [hlog, hm.log]
      exact mem_cons_of_mem _ hev
  | saved m hm hs _ =>
    rw [hs.log]
    rcases saveFile_cases w m with ⟨_, heq, _⟩ | ⟨_, _, heq⟩ | ⟨_, _, heq⟩
    · rw [heq, hm.log]
      exact hev
    · rw [heq]
      apply mem_cons_of_mem
      rw [hm.log]
      exact hev
    · rw [heq]
      rw [hm.log]
      exact hev

/-! ## Runs -/

/-- Snapshots that fit in their slots. -/
def SnapshotsFit (e : Editor) : Prop := ∀ t, .snapshot t ∈ e.log → (serialize t).length ≤ edUndoCap

theorem take_log (e : Editor) (i : Input) : ∀ ev ∈ e.log, ev ∈ (take e i).2.log := by
  intro ev hev
  rcases take_keys e i with hstill | ⟨_, w, m, k, rfl, hstill, heq, _⟩
  · rw [hstill.log]
    exact hev
  · rw [heq]
    apply key_log
    rw [hstill.log]
    exact hev

theorem Ring.take {i : Input} (h : Ring e) (hsane : Sane e) (hfits : SnapshotsFit (take e i).2) :
    Ring (take e i).2 := by
  rcases take_keys e i with hstill | ⟨_, w, m, k, rfl, hstill, heq, hm⟩
  · exact h.of_same hstill.toSame
  · rw [heq] at hfits ⊢
    exact (h.of_same hstill.toSame).key (hm hsane).1.valid hfits

theorem fits_of_lt {i : Input} (h : e.nlines < edMaxLines) : i.Fits e := by
  cases i with
  | key byte w => exact fun hpast => absurd hpast.2.1.2.1 (ne_of_lt h)
  | flush | draw | close => trivial

theorem Reached.ring (h : Reached (fun e _ => e.nlines < edMaxLines) disk path e)
    (hfits : SnapshotsFit e) : Ring e := by
  induction h with
  | opened => exact ⟨Nat.zero_lt_succ _, rfl, fun k hk => absurd hk (Nat.not_lt_zero k)⟩
  | step i hreached hi ih =>
    have hsane := hreached.sane fun hlt => fits_of_lt hlt
    exact (ih fun t ht => hfits t (take_log _ i _ ht)).take hsane hfits

/-! ## Pressing `u` -/

/-- Normal mode, with no operator pending and no escape sequence begun. -/
structure Ready (e : Editor) : Prop where
  ground : e.keyEs = .ground
  normal : e.vmode = .normal
  none : e.vpending = none

theorem clampCx_ready (h : Ready e) : Ready (clampCx e) := by
  unfold clampCx
  split
  · exact ⟨h.ground, h.normal, h.none⟩
  · exact h

theorem doUndo_ready (h : Ready e) : Ready (doUndo e) := by
  unfold doUndo
  split
  · exact ⟨h.ground, h.normal, h.none⟩
  · have hclamp := fun m => clampCx_ready (e := m)
    refine ⟨(hclamp _ ?_).ground, (hclamp _ ?_).normal, (hclamp _ ?_).none⟩
    all_goals exact ⟨h.ground, h.normal, h.none⟩

theorem press_undo (h : Ready e) :
    (editorVimKey w e 117).2 = doUndo { e with statusMsg := none, vcount := 0 } := by
  have hkey : editorVimKey w e 117 = vimKeyLogical w e 117 := by
    unfold editorVimKey
    simp only [h.ground]
    rfl
  rw [hkey, vimKeyLogical_normal (by decide) h.normal]
  unfold handleNormal
  rw [if_neg (not_digit (by decide) _), h.none]
  rfl

theorem presses_undo {k : Nat} (h : Ring e) (hready : Ready e) (hk : k < held e.log) :
    (pending e.log)[k]? = some (feed w e (List.replicate (k + 1) 117)).text := by
  induction k generalizing e with
  | zero =>
    show _ = some (editorVimKey w e 117).2.text
    rw [press_undo hready]
    exact (Ring.undo (e := { e with statusMsg := none, vcount := 0 }) ⟨h.head, h.count, h.slot⟩ hk).2.1
  | succ k ih =>
    show _ = some (feed w (editorVimKey w e 117).2 (replicate (k + 1) 117)).text
    rw [press_undo hready]
    have hring : Ring { e with statusMsg := none, vcount := 0 } := ⟨h.head, h.count, h.slot⟩
    obtain ⟨hring', _, hlog⟩ := hring.undo (Nat.lt_of_le_of_lt (Nat.zero_le _) hk)
    have hready' : Ready (doUndo { e with statusMsg := none, vcount := 0 }) :=
      doUndo_ready ⟨hready.ground, hready.normal, hready.none⟩
    rw [← ih hring' hready' (by rw [hlog]; show k < held e.log - 1; omega), hlog]
    show _ = (pending e.log).tail[k]?
    rw [getElem?_tail]

/-! ## Command groups -/

/-- The states of a command group that begins in `e`: a key outside insert mode, and the keys of
the insert mode it may lead to. -/
inductive Group (e : Editor) : Editor → Prop where
  | command (w : Answer) (k : Nat) (hmode : e.vmode ≠ .insert) : Group e (vimKeyLogical w e k).2
  | typed {e' : Editor} (w : Answer) (k : Nat) (h : Group e e') (hmode : e'.vmode = .insert) :
      Group e (vimKeyLogical w e' k).2

/-- A group that has changed the text has taken a snapshot of it before, or is an undo; one that
is in insert mode has taken the snapshot anyway. -/
theorem Group.snapshot (h : Group e e') :
    (e'.text = e.text ∨ e'.log = .snapshot e.text :: e.log ∨ e'.log = .undone :: e.log) ∧
    (e'.vmode = .insert → e'.log = .snapshot e.text :: e.log) := by
  induction h with
  | command w k hmode =>
    rcases vimKeyLogical_did w e k with ⟨hinsert, _⟩ | ⟨_, hdid⟩
    · exact absurd hinsert hmode
    cases hdid with
    | still hs hm => exact ⟨.inl hs.text, fun hinsert => absurd hinsert hm⟩
    | pushed m hm hsame _ =>
      have hlog : (vimKeyLogical w e k).2.log = .snapshot e.text :: e.log := by
        rw [hsame.log, (pushUndo_pushed m).log, hm.text, hm.log]
      exact ⟨.inr (.inl hlog), fun _ => hlog⟩
    | undone m hm hs hleft =>
      refine ⟨?_, fun hinsert => absurd hinsert hleft⟩
      rcases doUndo_cases m with ⟨_, hstill⟩ | ⟨_, _, _, hlog⟩
      · exact .inl ((hm.trans hstill).trans hs).text
      · exact .inr (.inr (by rw [hs.log, hlog, hm.log]))
    | saved m hm hs hleft =>
      refine ⟨.inl ?_, fun hinsert => absurd hinsert hleft⟩
      rw [hs.text]
      rcases saveFile_cases w m with ⟨_, heq, _⟩ | ⟨_, _, heq⟩ | ⟨_, _, heq⟩
      · rw [heq]
        exact hm.text
      · rw [heq]
        exact hm.text
      · rw [heq]
        exact hm.text
  | @typed e₁ w k hgroup hmode ih =>
    have hlog := ih.2 hmode
    rcases vimKeyLogical_did w e₁ k with ⟨_, hedit⟩ | ⟨hnot, _⟩
    · have hlog' := hedit.log.trans hlog
      exact ⟨.inr (.inl hlog'), fun _ => hlog'⟩
    · exact absurd hmode hnot

/-- **Undo**: `k + 1` presses of `u` restore the lines of the `k`-th latest snapshot that has not
been undone, of those that are held, the latest for `k = 0`; and every command group that changes
the text has taken a snapshot of the text before it, if it is not an undo. -/
theorem undo_restores (h : Reached (fun e _ => e.nlines < edMaxLines) disk path e)
    (hfits : SnapshotsFit e) :
    (Ready e → ∀ (w : Answer) (k : Nat), k < held e.log →
      (pending e.log)[k]? = some (feed w e (List.replicate (k + 1) 117)).text) ∧
    ∀ e', Group e e' → e'.text ≠ e.text →
      e'.log = .snapshot e.text :: e.log ∨ e'.log = .undone :: e.log := by
  refine ⟨fun hready w k hk => presses_undo (h.ring hfits) hready hk, ?_⟩
  intro e' hgroup hne
  rcases hgroup.snapshot.1 with hsame | hlog
  · exact absurd hsame hne
  · exact hlog

/-- `x` and `u` on the line `a`. -/
theorem undo_restores_delete : ∃ e, Reached (fun e _ => e.nlines < edMaxLines) lineDisk [47, 97] e ∧
    e.text = [[]] ∧ (feed idleAnswer e [117]).text = [[97]] := by
  have hreached : Reached (fun e _ => e.nlines < edMaxLines) lineDisk [47, 97] (lineEditor [120]) :=
    Reached.opened.step (.key 120 idleAnswer) (by decide +kernel)
  have hlog : (lineEditor [120]).log = [.snapshot [[97]]] := rfl
  have hfits : SnapshotsFit (lineEditor [120]) := by
    intro t ht
    rw [hlog, mem_singleton] at ht
    cases ht
    decide
  have hundo := (undo_restores hreached hfits).1
    ⟨by decide +kernel, by decide +kernel, by decide +kernel⟩
    idleAnswer 0 (by rw [hlog]; decide)
  rw [hlog] at hundo
  exact ⟨_, hreached, by decide +kernel, (Option.some.inj hundo).symm⟩

end JuampiOs.Edit
