import JuampiOs.LineEdit.Model

/-!
# Where the two line editors agree

`lineedit.h` asks for identical editing and history in both. They are not: `Alike` is what a byte
must not be, in the states of the two editors, for them to stay together.

* Ctrl-B and Ctrl-F move in the shell only, and so do the numbered Home, End and Delete keys
  (`ESC [ 1 ~` and so on).
* A modified arrow is a word motion in the shell for the parameters `1;5` and `1;3`, in the
  terminal for all with a `5` in them.
* Down from the newest entry leaves an empty line in the shell, and in the terminal the line that
  was begun before.
* An edit of a recalled line takes the terminal back to the newest entry, and the shell not.

If every byte is alike, both submit the same line at the same byte and store the same history
(`lines_agree`).
-/

namespace JuampiOs.LineEdit

open Lib Str List

variable {s : Shell} {t : Term}

/-! ## The comparison with the last entry -/

theorem strFrom_cons {c : UInt8} (hc : c ≠ 0) (l : Line) : strFrom (c :: l) = c :: strFrom l := by
  rw [strFrom, takeWhile_cons_of_pos (by simpa using hc)]
  rfl

theorem strFrom_zero (l : Line) : strFrom (0 :: l) = [] := rfl

theorem sameLine_iff (a b : Line) : Term.sameLine a b = true ↔ strFrom a = strFrom b := by
  induction a generalizing b with
  | nil => cases b <;> simp [Term.sameLine, strFrom, takeWhile_cons]
  | cons c a ih =>
    cases b with
    | nil => by_cases hc : c = 0 <;> simp [Term.sameLine, strFrom, hc]
    | cons d b =>
      by_cases hc : c = 0 <;> by_cases hd : d = 0 <;>
        grind [Term.sameLine, strFrom_cons, strFrom_zero]

theorem histAdd_eq (h : History) (line : Line) : Term.histAdd h line = Shell.histAdd h line := by
  unfold Term.histAdd Shell.histAdd
  split
  · rfl
  · congr 1
    rw [sameLine_iff]

/-! ## The relation -/

/-- They wait for the same byte: the shell keeps seven parameters, the terminal fifteen. -/
inductive Reads : Reading → Reading → Prop where
  | key : Reads .key .key
  | esc : Reads .esc .esc
  | seq (bytes : List UInt8) : Reads (.seq (bytes.take 7)) (.seq (bytes.take 15))

theorem Reads.snoc {params kcsi : List UInt8} (h : Reads (.seq params) (.seq kcsi)) (c : UInt8) :
    Reads (.seq (if params.length + 1 < 8 then params ++ [c] else params))
      (.seq (if kcsi.length < 15 then kcsi ++ [c] else kcsi)) := by
  have htake : ∀ (n : Nat) (bytes : List UInt8),
      (if (bytes.take n).length < n then bytes.take n ++ [c] else bytes.take n) =
        (bytes ++ [c]).take n := by
    intro n bytes
    by_cases hn : bytes.length < n
    · rw [List.take_of_length_le (Nat.le_of_lt hn), if_pos hn,
        take_of_length_le (by rw [length_append]; exact hn)]
    · rw [take_append_of_le_length (by omega), length_take, if_neg (by omega)]
  cases h with
  | seq bytes =>
    have hseven : (bytes.take 7).length + 1 < 8 ↔ (bytes.take 7).length < 7 := by omega
    simp only [hseven]
    rw [htake 7, htake 15]
    exact .seq (bytes ++ [c])

/-- The same line, cursor and history. -/
structure Agree (s : Shell) (t : Term) : Prop where
  line : t.inLine = s.buf
  cur : t.inCur = s.cur
  history : t.history = s.history
  reads : Reads s.reading t.kesc
  le : s.cur ≤ s.buf.length

/-- The bytes that do the same in both after the parameters of a sequence. -/
abbrev SeqAlike (s : Shell) (t : Term) (params kcsi : List UInt8) (c : UInt8) : Prop :=
  (c = 65 → t.histBrowse = s.browse) ∧
  (c = 66 → t.histBrowse = s.browse ∧ (s.browse = some 0 → strFrom t.histSaved = [])) ∧
  (c = 67 ∨ c = 68 → Shell.isWordSeq params = kcsi.contains 53) ∧
  (c = 126 →
    (strFrom params = [49] ∨ strFrom params = [55] → s.cur = 0) ∧
    (strFrom params = [51] ∨ strFrom params = [52] ∨ strFrom params = [56] →
      s.cur = s.buf.length))

/-- The bytes that do the same in both. -/
def Alike (s : Shell) (t : Term) (c : UInt8) : Prop :=
  match s.reading, t.kesc with
  | .seq params, .seq kcsi => SeqAlike s t params kcsi c
  | .key, _ => (c = 0x02 → s.cur = 0) ∧ (c = 0x06 → s.cur = s.buf.length)
  | _, _ => True

instance (s : Shell) (t : Term) (c : UInt8) : Decidable (Alike s t c) := by
  unfold Alike
  split <;> infer_instance

/-- Every byte up to the first line is alike, in the states the two are then in. -/
def AlikeAll (s : Shell) (t : Term) : List UInt8 → Prop
  | [] => True
  | c :: cs =>
    Alike s t c ∧
      match s.step c with
      | .inl s => AlikeAll s (t.key c).1 cs
      | .inr _ => True

instance AlikeAll.decidable (s : Shell) (t : Term) (cs : List UInt8) : Decidable (AlikeAll s t cs) := by
  induction cs generalizing s t with
  | nil => exact inferInstanceAs (Decidable True)
  | cons c cs ih =>
    unfold AlikeAll
    cases s.step c with
    | inl s' => exact @instDecidableAnd _ _ _ (ih s' _)
    | inr out => exact @instDecidableAnd _ _ _ (inferInstanceAs (Decidable True))

theorem wordLeft_le (buf : Line) (cur : Nat) : wordLeft buf cur ≤ cur :=
  Nat.le_trans (scanDown_le _ _) (scanDown_le _ _)

theorem wordRight_le {buf : Line} {cur : Nat}
    (h : cur ≤ buf.length) : wordRight buf cur ≤ buf.length := by
  unfold wordRight
  dsimp only
  have h1 := scanUp_bounds (fun j => !isWord (buf.getD j 0)) (buf.length - cur) cur
  generalize scanUp _ (buf.length - cur) cur = i at h1 ⊢
  have h2 := scanUp_bounds (fun j => isWord (buf.getD j 0)) (buf.length - i) i
  omega

theorem length_removeRange {buf : Line} {start stop : Nat} (h : start ≤ stop)
    (hstop : stop ≤ buf.length) :
    (removeRange buf start stop).length = buf.length - (stop - start) := by
  rw [removeRange, length_append, length_take, length_drop]
  omega

/-- Where both take the same branch. -/
theorem Agree.ite {p : Prop} [Decidable p] {s' : Shell} {t' : Term} (h : p → Agree s t)
    (h' : ¬ p → Agree s' t') : Agree (if p then s else s') (if p then t else t') := by
  split
  · exact h ‹p›
  · exact h' ‹¬ p›

section

variable (h : Agree s t)
include h

theorem deleteRange_agree {start : Nat} (hstart : start ≤ s.cur) :
    Agree { s with buf := removeRange s.buf start s.cur, cur := start }
      (t.deleteRange start t.inCur) := by
  cases t
  obtain ⟨rfl, rfl, rfl, hreads, hle⟩ := h
  have hlen := length_removeRange hstart hle
  have hcur : start ≤ (removeRange s.buf start s.cur).length := by omega
  unfold Term.deleteRange
  dsimp only
  split
  · -- there is nothing to remove
    obtain rfl : start = s.cur := by omega
    exact ⟨(take_append_drop _ _).symm, rfl, rfl, hreads, hcur⟩
  · refine ⟨rfl, ?_, rfl, hreads, hcur⟩
    show (if start < s.cur then (if s.cur < s.cur then _ else start) else s.cur) = start
    rw [if_neg (Nat.lt_irrefl s.cur)]
    split <;> omega

theorem control_agree {c : UInt8} (hb : c = 0x02 → s.cur = 0)
    (hf : c = 0x06 → s.cur = s.buf.length) : Agree (s.control c) (t.control c) := by
  have hkill := @deleteRange_agree s t h
  cases t
  obtain ⟨rfl, rfl, rfl, hreads, hle⟩ := h
  by_cases h1 : c = 0x01
  · rw [h1]
    exact ⟨rfl, rfl, rfl, hreads, Nat.zero_le _⟩
  by_cases h5 : c = 0x05
  · rw [h5]
    exact ⟨rfl, rfl, rfl, hreads, Nat.le_refl _⟩
  by_cases h2 : c = 0x02
  · have hcur := hb h2
    rw [h2]
    show Agree { s with cur := if 0 < s.cur then s.cur - 1 else s.cur } _
    rw [if_neg (by omega)]
    exact ⟨rfl, rfl, rfl, hreads, hle⟩
  by_cases h6 : c = 0x06
  · have hcur := hf h6
    rw [h6]
    show Agree { s with cur := if s.cur < s.buf.length then s.cur + 1 else s.cur } _
    rw [if_neg (by omega)]
    exact ⟨rfl, rfl, rfl, hreads, hle⟩
  by_cases h15 : c = 0x15
  · rw [h15]
    show Agree (if 0 < s.cur then { s with buf := removeRange s.buf 0 s.cur, cur := 0 } else s) _
    have hkill := hkill (Nat.zero_le _)
    split
    · exact ⟨hkill.line, rfl, hkill.history, hkill.reads, Nat.zero_le _⟩
    · refine ⟨hkill.line.trans ?_, by show 0 = s.cur; omega, hkill.history, hkill.reads, hle⟩
      rw [show s.cur = 0 by omega]
      rfl
  by_cases hk : c = 0x0B
  · rw [hk]
    show Agree (if s.cur < s.buf.length then { s with buf := s.buf.take s.cur } else s) _
    split
    · refine ⟨rfl, rfl, rfl, hreads, ?_⟩
      show s.cur ≤ (s.buf.take s.cur).length
      rw [length_take]
      omega
    · exact ⟨take_of_length_le (show s.buf.length ≤ s.cur by omega), rfl, rfl, hreads, hle⟩
  by_cases h17 : c = 0x17
  · rw [h17]
    show Agree (if 0 < s.cur then _ else s) _
    have hkill := hkill (wordLeft_le s.buf s.cur)
    split
    · exact hkill
    have hnone : wordLeft s.buf s.cur = s.cur := by
      have := wordLeft_le s.buf s.cur
      omega
    refine ⟨hkill.line.trans ?_, hkill.cur.trans hnone, hkill.history, hkill.reads, hle⟩
    show s.buf.take (wordLeft s.buf s.cur) ++ s.buf.drop s.cur = s.buf
    rw [hnone, take_append_drop]
  by_cases hbs : c = 0x7F ∨ c = 0x08
  · have hshell : s.control c = if 0 < s.cur then
        { s with buf := removeRange s.buf (s.cur - 1) s.cur, cur := s.cur - 1 } else s := by
      rcases hbs with rfl | rfl <;> rfl
    have hterm : ∀ t : Term, t.control c = t.deleteBefore := by
      rcases hbs with rfl | rfl <;> exact fun _ => rfl
    rw [hshell, hterm]
    unfold Term.deleteBefore
    dsimp only
    split
    · rw [if_neg (by omega)]
      have hlen := length_removeRange (Nat.sub_le s.cur 1) hle
      refine ⟨rfl, rfl, rfl, hreads, ?_⟩
      show s.cur - 1 ≤ (removeRange s.buf (s.cur - 1) s.cur).length
      omega
    · rw [if_pos (by omega)]
      exact ⟨rfl, rfl, rfl, hreads, hle⟩
  -- a printable character, or nothing
  unfold Shell.control Term.control
  rw [if_neg h1, if_neg h5, if_neg h2, if_neg h6, if_neg h15, if_neg hk, if_neg h17, if_neg hbs,
    if_neg hbs, if_neg h1, if_neg h5, if_neg h15, if_neg hk, if_neg h17]
  by_cases hprint : 32 ≤ c ∧ c < 127
  · rw [if_pos hprint]
    unfold Term.insertChar
    dsimp only
    by_cases hroom : s.buf.length < lineMax - 1
    · rw [if_pos ⟨hprint.1, hprint.2, hroom⟩, if_neg (by omega)]
      refine ⟨rfl, rfl, rfl, hreads, ?_⟩
      show s.cur + 1 ≤ (insertAt s.buf s.cur c).length
      rw [insertAt, length_append, length_take, length_cons, length_drop]
      omega
    · rw [if_neg (fun hall => hroom hall.2.2), if_pos (by omega)]
      exact ⟨rfl, rfl, rfl, hreads, hle⟩
  · rw [if_neg (fun hall => hprint ⟨hall.1, hall.2.1⟩), if_neg hprint]
    exact ⟨rfl, rfl, rfl, hreads, hle⟩

/-! ## Escape sequences -/

theorem load_agree {src src' : Line} (heq : loadLine src' = loadLine src) :
    Agree (s.setLine src) (t.load src') :=
  ⟨heq, congrArg List.length heq, h.history, h.reads, Nat.le_refl _⟩

theorem up_agree (hbrowse : t.histBrowse = s.browse) :
    Agree (if 0 < s.history.count then
      { s with browse := some (s.history.older s.browse) }.setLine
        (s.history.recall (s.history.older s.browse)) else s) t.histPrev := by
  have hcount : t.history.count = s.history.count := congrArg History.count h.history
  unfold Term.histPrev
  by_cases hsome : 0 < s.history.count
  · rw [if_pos hsome, if_neg (by omega)]
    have hview : Agree { s with browse := some (s.history.older s.browse) } { t with
        histSaved := if t.histBrowse = none then strFrom t.inLine else t.histSaved
        histBrowse := some (t.history.older t.histBrowse) } :=
      ⟨h.line, h.cur, h.history, h.reads, h.le⟩
    apply load_agree hview
    show loadLine (t.history.recall (t.history.older t.histBrowse)) = _
    rw [h.history, hbrowse]
  · rw [if_neg hsome, if_pos (by omega)]
    exact h

theorem down_agree (hbrowse : t.histBrowse = s.browse)
    (hsaved : s.browse = some 0 → strFrom t.histSaved = []) :
    Agree (match s.browse with
      | none => s
      | some 0 => { s with browse := none }.setLine []
      | some (b + 1) => { s with browse := some b }.setLine (s.history.recall b)) t.histNext := by
  unfold Term.histNext
  rw [hbrowse]
  cases hb : s.browse with
  | none => exact h
  | some b =>
    cases b with
    | zero =>
      have hview : Agree { s with browse := none } { t with histBrowse := none } :=
        ⟨h.line, h.cur, h.history, h.reads, h.le⟩
      apply load_agree hview
      unfold loadLine
      rw [hsaved hb]
      rfl
    | succ b =>
      have hview : Agree { s with browse := some b } { t with histBrowse := some b } :=
        ⟨h.line, h.cur, h.history, h.reads, h.le⟩
      apply load_agree hview
      rw [h.history]

theorem scroll_agree (kcsi : List UInt8) :
    Agree s (if kcsi.headD 0 = 53 then { t with scrollOff := t.scrollOff + 10 }
      else if kcsi.headD 0 = 54 then { t with scrollOff := max (t.scrollOff - 10) 0 } else t) := by
  split
  · exact ⟨h.line, h.cur, h.history, h.reads, h.le⟩
  · split
    · exact ⟨h.line, h.cur, h.history, h.reads, h.le⟩
    · exact h

theorem sequence_agree {params kcsi : List UInt8} {c : UInt8} (hc : SeqAlike s t params kcsi c) :
    Agree (s.sequence params c) (t.keySeq kcsi c) := by
  obtain ⟨hup, hdown, hword, hnum⟩ := hc
  unfold Shell.sequence Term.keySeq
  refine .ite (fun h65 => up_agree h (hup h65)) fun _ => ?_
  refine .ite (fun h66 => down_agree h (hdown h66).1 (hdown h66).2) fun _ => ?_
  have hscroll := scroll_agree h kcsi
  cases t
  obtain ⟨rfl, rfl, rfl, hreads, hle⟩ := h
  refine .ite (fun h67 => ?_) fun _ => .ite (fun h68 => ?_) fun _ => ?_
  · rw [hword (.inl h67)]
    cases kcsi.contains 53 with
    | true => exact ⟨rfl, rfl, rfl, hreads, wordRight_le hle⟩
    | false =>
      refine ⟨rfl, rfl, rfl, hreads, ?_⟩
      show (if s.cur < s.buf.length then s.cur + 1 else s.cur) ≤ s.buf.length
      split <;> omega
  · rw [hword (.inr h68)]
    cases kcsi.contains 53 with
    | true => exact ⟨rfl, rfl, rfl, hreads, Nat.le_trans (wordLeft_le _ _) hle⟩
    | false =>
      refine ⟨rfl, ?_, rfl, hreads, ?_⟩
      · show s.cur - 1 = if 0 < s.cur then s.cur - 1 else s.cur
        split <;> omega
      · show (if 0 < s.cur then s.cur - 1 else s.cur) ≤ s.buf.length
        split <;> omega
  refine .ite (fun _ => ⟨rfl, rfl, rfl, hreads, Nat.zero_le _⟩) fun _ => ?_
  refine .ite (fun _ => ⟨rfl, rfl, rfl, hreads, Nat.le_refl _⟩) fun _ => ?_
  refine .ite (fun h126 => ?_) fun _ => ⟨rfl, rfl, rfl, hreads, hle⟩
  obtain ⟨hhome, hend⟩ := hnum h126
  -- what the shell does here leaves its state as it is
  have hstay : ∀ cur, cur = s.cur → { s with cur := cur } = s := by
    rintro cur rfl
    rfl
  split
  · rename_i hp
    rw [hstay 0 (hhome hp).symm]
    exact hscroll
  split
  · rename_i hp
    rw [hstay s.buf.length (hend (.inr hp)).symm]
    exact hscroll
  split
  · rename_i hp
    have hat := hend (.inl hp)
    rw [if_neg (by omega)]
    exact hscroll
  · exact hscroll

/-! ## Bytes and runs -/

theorem step_agree {c : UInt8} (hc : Alike s t c) :
    (∃ s' t', s.step c = .inl s' ∧ t.key c = (t', none) ∧ Agree s' t') ∨
    ∃ line t', s.step c = .inr (line, t'.history) ∧ t.key c = (t', some line) := by
  have hreads := h.reads
  unfold Shell.step Term.key
  unfold Alike at hc
  generalize s.reading = r, t.kesc = r' at hreads hc ⊢
  cases hreads with
  | key =>
    by_cases henter : c = 13 ∨ c = 10
    · have hesc : c ≠ 27 := by
        rcases henter with rfl | rfl <;> decide
      rw [if_pos henter, if_neg hesc, if_pos henter]
      refine .inr ⟨t.inLine, t.submit, ?_, rfl⟩
      show Sum.inr (s.buf, Shell.histAdd s.history s.buf) =
        Sum.inr (t.inLine, Term.histAdd t.history t.inLine)
      rw [histAdd_eq, h.line, h.history]
    · rw [if_neg henter]
      by_cases hesc : c = 27
      · rw [if_pos hesc, if_pos hesc]
        exact .inl ⟨_, _, rfl, rfl, h.line, h.cur, h.history, .esc, h.le⟩
      · rw [if_neg hesc, if_neg hesc, if_neg henter]
        exact .inl ⟨_, _, rfl, rfl, control_agree h hc.1 hc.2⟩
  | esc =>
    left
    dsimp only
    by_cases hopen : c = 91 ∨ c = 79
    · have hb : c ≠ 98 ∧ c ≠ 102 := by
        rcases hopen with rfl | rfl <;> decide
      rw [if_neg hb.1, if_neg hb.2, if_pos hopen, if_pos hopen]
      exact ⟨_, _, rfl, rfl, h.line, h.cur, h.history, .seq [], h.le⟩
    rw [if_neg hopen, if_neg hopen]
    by_cases hb : c = 98
    · rw [if_pos hb, if_pos hb]
      refine ⟨_, _, rfl, rfl, h.line, ?_, h.history, .key, Nat.le_trans (wordLeft_le _ _) h.le⟩
      rw [h.line, h.cur]
    rw [if_neg hb, if_neg hb]
    by_cases hf : c = 102
    · rw [if_pos hf, if_pos hf]
      refine ⟨_, _, rfl, rfl, h.line, ?_, h.history, .key, wordRight_le h.le⟩
      rw [h.line, h.cur]
    · rw [if_neg hf, if_neg hf]
      exact ⟨_, _, rfl, rfl, h.line, h.cur, h.history, .key, h.le⟩
  | seq bytes =>
    left
    dsimp only at hc ⊢
    by_cases hfin : isFinal c = true
    · rw [if_pos hfin, if_pos hfin]
      have hview : Agree { s with reading := .key } { t with kesc := .key } :=
        ⟨h.line, h.cur, h.history, .key, h.le⟩
      exact ⟨_, _, rfl, rfl, sequence_agree hview hc⟩
    · rw [if_neg hfin, if_neg hfin]
      exact ⟨_, _, rfl, rfl, h.line, h.cur, h.history, (Reads.seq bytes).snoc c, h.le⟩

end

theorem read_agree (cs : List UInt8) (h : Agree s t) (halike : AlikeAll s t cs) :
    s.read cs = t.read cs := by
  induction cs generalizing s t with
  | nil => rfl
  | cons c cs ih =>
    rw [Shell.read, Term.read]
    obtain ⟨hc, hrest⟩ := halike
    rcases step_agree h hc with ⟨s', t', hs, ht, hnext⟩ | ⟨line, t', hs, ht⟩
    · rw [hs, ht] at hrest ⊢
      exact ih hnext hrest
    · rw [hs, ht]

/-- From an empty line, whatever the history holds and whatever the terminal has kept of earlier
lines: the same line is submitted and the same history stored. -/
theorem lines_agree (history : History) (histSaved : Line) (scrollOff : Int) (cs : List UInt8)
    (halike : AlikeAll { history } { history, histSaved, scrollOff } cs) :
    Shell.read { history } cs = Term.read { history, histSaved, scrollOff } cs :=
  read_agree cs ⟨rfl, rfl, rfl, .key, Nat.le_refl _⟩ halike

/-- A history with the line `h`. -/
def oneLine : History where
  entries := fun _ => [104]
  count := 1
  next := 1
  count_le := by decide
  next_lt := by decide

/-- `a`, Up, Ctrl-Left, `b`, Enter: the line is `bh` in both. -/
theorem lines_agree_recall :
    AlikeAll { history := oneLine } { history := oneLine, histSaved := [], scrollOff := 0 }
      [97, 27, 91, 65, 27, 91, 49, 59, 53, 68, 98, 13] ∧
    (Term.read { history := oneLine, histSaved := [], scrollOff := 0 }
      [97, 27, 91, 65, 27, 91, 49, 59, 53, 68, 98, 13]).map Prod.fst = some [98, 104] := by
  have halike : AlikeAll { history := oneLine } { history := oneLine, histSaved := [], scrollOff := 0 }
      [97, 27, 91, 65, 27, 91, 49, 59, 53, 68, 98, 13] := by decide +kernel
  refine ⟨halike, ?_⟩
  rw [← lines_agree oneLine [] 0 _ halike]
  decide +kernel

/-- The line of each editor, when the history holds `h`. -/
def linesOf (cs : List UInt8) : Option Line × Option Line :=
  ((Shell.read { history := oneLine } cs).map Prod.fst,
    (Term.read { history := oneLine } cs).map Prod.fst)

/-- What the two submit: for `a`, Ctrl-B, `b`; for `a`, Up, Down; for `ab`, Ctrl-A, Delete; for
`ab`, Alt-Left, `c`; for Up, Backspace, Up in a history of the lines `g` and `h`. -/
theorem lines_differ :
    linesOf [97, 2, 98, 13] = (some [98, 97], some [97, 98]) ∧
    linesOf [97, 27, 91, 65, 27, 91, 66, 13] = (some [], some [97]) ∧
    linesOf [97, 98, 1, 27, 91, 51, 126, 13] = (some [98], some [97, 98]) ∧
    linesOf [97, 98, 27, 91, 49, 59, 51, 68, 99, 13] = (some [99, 97, 98], some [97, 99, 98]) ∧
    (Shell.read { history := oneLine.store [103] } [27, 91, 65, 127, 27, 91, 65, 13]).map Prod.fst =
      some [104] ∧
    (Term.read { history := oneLine.store [103] } [27, 91, 65, 127, 27, 91, 65, 13]).map Prod.fst =
      some [103] := by
  decide +kernel

end JuampiOs.LineEdit
