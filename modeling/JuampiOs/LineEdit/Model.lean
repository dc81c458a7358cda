import JuampiOs.Lib.Cells
import JuampiOs.Str

/-!
# The two line editors

`shell_read_line` of `shell.c`, which blocks for every byte, and `term_key` of `term.c`, which is
given one byte at a time. The three places where `shell_read_line` waits for a byte are the three
values of `Reading`; the escape states of `term.c` are the same three.

An edit buffer is the list of its characters, and a stored line that of its array, of which the
string is the part before the first NUL. `-1` in `browse` is `none`. Left out: the redrawing,
the prompt, and the evaluation of the line.
-/

namespace JuampiOs.LineEdit

open Lib Str

/-- `LINE_MAX`. -/
def lineMax : Nat := 256
/-- `HIST_MAX`. -/
def histMax : Nat := 32

abbrev Line := List UInt8

/-- `history`, `hist_count` and `hist_next`. -/
structure History where
  entries : Nat → Line
  count : Nat
  next : Nat
  count_le : count ≤ histMax
  next_lt : next < histMax

/-- Where the byte goes that is waited for. -/
inductive Reading where
  | key
  | esc
  | seq (params : List UInt8)
deriving DecidableEq

/-! ## What they share -/

/-- `is_word`. -/
def isWord (c : UInt8) : Bool :=
  (65 ≤ c && c ≤ 90) || (97 ≤ c && c ≤ 122) || (48 ≤ c && c ≤ 57) || c == 95

/-- `word_left`. -/
def wordLeft (buf : Line) (cur : Nat) : Nat :=
  scanDown (fun j => isWord (buf.getD (j - 1) 0))
    (scanDown (fun j => !isWord (buf.getD (j - 1) 0)) cur)

/-- `word_right`. -/
def wordRight (buf : Line) (cur : Nat) : Nat :=
  let i := scanUp (fun j => !isWord (buf.getD j 0)) (buf.length - cur) cur
  scanUp (fun j => isWord (buf.getD j 0)) (buf.length - i) i

/-- A character at the cursor. -/
def insertAt (buf : Line) (cur : Nat) (c : UInt8) : Line := buf.take cur ++ c :: buf.drop cur

/-- The characters from `start` to `stop` removed. -/
def removeRange (buf : Line) (start stop : Nat) : Line := buf.take start ++ buf.drop stop

/-- `set_line` and `load_line`: the string, up to the size of the buffer. -/
def loadLine (src : Line) : Line := (strFrom src).take (lineMax - 1)

/-- `(hist_next - 1 + HIST_MAX) % HIST_MAX`. -/
def History.last (h : History) : Nat := (h.next + histMax - 1) % histMax

/-- The entry `browse` steps back from the newest. -/
def History.recall (h : History) (browse : Nat) : Line :=
  h.entries ((h.next + 2 * histMax - 1 - browse) % histMax)

/-- A line goes to the next slot. -/
def History.store (h : History) (line : Line) : History where
  entries := Function.update h.entries h.next (loadLine line)
  count := if h.count < histMax then h.count + 1 else h.count
  next := (h.next + 1) % histMax
  count_le := by
    have := h.count_le
    split <;> omega
  next_lt := Nat.mod_lt _ (by decide)

/-- One step back in the history. -/
def History.older (h : History) : Option Nat → Nat
  | none => 0
  | some b => if b + 1 < h.count then b + 1 else b

/-! ## `shell.c` -/

/-- `hist_add` of `shell.c`. -/
def Shell.histAdd (h : History) (line : Line) : History :=
  if line.headD 0 = 0 then h
  else if 0 < h.count ∧ strFrom (h.entries h.last) = strFrom line then h
  else h.store line

structure Shell where
  history : History
  buf : Line := []
  cur : Nat := 0
  browse : Option Nat := none
  reading : Reading := .key

/-- A key other than Enter and Esc. -/
def Shell.control (s : Shell) (c : UInt8) : Shell :=
  if c = 0x01 then { s with cur := 0 }
  else if c = 0x05 then { s with cur := s.buf.length }
  else if c = 0x02 then { s with cur := if 0 < s.cur then s.cur - 1 else s.cur }
  else if c = 0x06 then { s with cur := if s.cur < s.buf.length then s.cur + 1 else s.cur }
  else if c = 0x15 then
    if 0 < s.cur then { s with buf := removeRange s.buf 0 s.cur, cur := 0 } else s
  else if c = 0x0B then
    if s.cur < s.buf.length then { s with buf := s.buf.take s.cur } else s
  else if c = 0x17 then
    if 0 < s.cur then
      { s with buf := removeRange s.buf (wordLeft s.buf s.cur) s.cur, cur := wordLeft s.buf s.cur }
    else s
  else if c = 0x7F ∨ c = 0x08 then
    if 0 < s.cur then { s with buf := removeRange s.buf (s.cur - 1) s.cur, cur := s.cur - 1 } else s
  else if 0x20 ≤ c ∧ c < 0x7F ∧ s.buf.length < lineMax - 1 then
    { s with buf := insertAt s.buf s.cur c, cur := s.cur + 1 }
  else s

/-- `set_line`. -/
def Shell.setLine (s : Shell) (src : Line) : Shell :=
  { s with buf := loadLine src, cur := (loadLine src).length }

/-- `"1;5"` and `"1;3"`. -/
def Shell.isWordSeq (params : List UInt8) : Bool :=
  strFrom params == [49, 59, 53] || strFrom params == [49, 59, 51]

/-- The switch over the final byte of a sequence. -/
def Shell.sequence (s : Shell) (params : List UInt8) (fin : UInt8) : Shell :=
  let word := Shell.isWordSeq params
  if fin = 65 then
    -- up
    if 0 < s.history.count then
      { s with browse := some (s.history.older s.browse) }.setLine
        (s.history.recall (s.history.older s.browse))
    else s
  else if fin = 66 then
    -- down
    match s.browse with
    | none => s
    | some 0 => { s with browse := none }.setLine []
    | some (b + 1) => { s with browse := some b }.setLine (s.history.recall b)
  else if fin = 67 then
    { s with
      cur :=
        if word then wordRight s.buf s.cur
        else if s.cur < s.buf.length then s.cur + 1 else s.cur }
  else if fin = 68 then
    { s with cur := if word then wordLeft s.buf s.cur else if 0 < s.cur then s.cur - 1 else s.cur }
  else if fin = 72 then { s with cur := 0 }
  else if fin = 70 then { s with cur := s.buf.length }
  else if fin = 126 then
    if strFrom params = [49] ∨ strFrom params = [55] then { s with cur := 0 }
    else if strFrom params = [52] ∨ strFrom params = [56] then { s with cur := s.buf.length }
    else if strFrom params = [51] then
      if s.cur < s.buf.length then { s with buf := removeRange s.buf s.cur (s.cur + 1) } else s
    else s
  else s

/-- The final byte of a sequence. -/
def isFinal (c : UInt8) : Bool := 0x40 ≤ c && c ≤ 0x7E

/-- `shell_read_line`, for the byte it waits for: it goes on, or returns its line. -/
def Shell.step (s : Shell) (c : UInt8) : Shell ⊕ Line × History :=
  match s.reading with
  | .key =>
    if c = 13 ∨ c = 10 then .inr (s.buf, Shell.histAdd s.history s.buf)
    else if c = 27 then .inl { s with reading := .esc }
    else .inl (s.control c)
  | .esc =>
    let s := { s with reading := .key }
    if c = 98 then .inl { s with cur := wordLeft s.buf s.cur }
    else if c = 102 then .inl { s with cur := wordRight s.buf s.cur }
    else if c = 91 ∨ c = 79 then .inl { s with reading := .seq [] }
    else .inl s
  | .seq params =>
    if isFinal c then .inl ({ s with reading := .key }.sequence params c)
    else .inl { s with reading := .seq (if params.length + 1 < 8 then params ++ [c] else params) }

/-- `shell_read_line` on the bytes to come. -/
def Shell.read : Shell → List UInt8 → Option (Line × History)
  | _, [] => none
  | s, c :: cs =>
    match s.step c with
    | .inl s => s.read cs
    | .inr out => some out

/-! ## `term.c` -/

/-- The comparison loop of `hist_add` of `term.c`. -/
def Term.sameLine : Line → Line → Bool
  | [], line => line.headD 0 == 0
  | a :: as, line =>
    if a ≠ 0 ∧ a = line.headD 0 then Term.sameLine as line.tail else a == line.headD 0

/-- `hist_add` of `term.c`. -/
def Term.histAdd (h : History) (line : Line) : History :=
  if line.headD 0 = 0 then h
  else if 0 < h.count ∧ Term.sameLine (h.entries h.last) line = true then h
  else h.store line

structure Term where
  history : History
  inLine : Line := []
  inCur : Nat := 0
  histBrowse : Option Nat := none
  histSaved : Line := []
  kesc : Reading := .key
  scrollOff : Int := 0

/-- `load_line`. -/
def Term.load (t : Term) (src : Line) : Term :=
  { t with inLine := loadLine src, inCur := (loadLine src).length }

/-- `hist_prev`. -/
def Term.histPrev (t : Term) : Term :=
  if t.history.count = 0 then t
  else
    let t := { t with
      histSaved := if t.histBrowse = none then strFrom t.inLine else t.histSaved
      histBrowse := some (t.history.older t.histBrowse) }
    t.load (t.history.recall (t.histBrowse.getD 0))

/-- `hist_next_`. -/
def Term.histNext (t : Term) : Term :=
  match t.histBrowse with
  | none => t
  | some 0 => { t with histBrowse := none }.load t.histSaved
  | some (b + 1) => { t with histBrowse := some b }.load (t.history.recall b)

/-- `insert_char`. -/
def Term.insertChar (t : Term) (c : UInt8) : Term :=
  if lineMax - 1 ≤ t.inLine.length then t
  else
    { t with inLine := insertAt t.inLine t.inCur c, inCur := t.inCur + 1, histBrowse := none }

/-- `delete_before`. -/
def Term.deleteBefore (t : Term) : Term :=
  if t.inCur = 0 then t
  else
    { t with
      inLine := removeRange t.inLine (t.inCur - 1) t.inCur
      inCur := t.inCur - 1
      histBrowse := none }

/-- `delete_range`. -/
def Term.deleteRange (t : Term) (start stop : Nat) : Term :=
  if t.inLine.length < stop ∨ stop ≤ start then t
  else
    { t with
      inLine := removeRange t.inLine start stop
      inCur :=
        if start < t.inCur then (if stop < t.inCur then t.inCur - (stop - start) else start)
        else t.inCur
      histBrowse := none }

/-- `key_seq`. -/
def Term.keySeq (t : Term) (kcsi : List UInt8) (fin : UInt8) : Term :=
  let word := kcsi.contains 53
  if fin = 65 then t.histPrev
  else if fin = 66 then t.histNext
  else if fin = 67 then
    { t with
      inCur :=
        if word then wordRight t.inLine t.inCur
        else if t.inCur < t.inLine.length then t.inCur + 1 else t.inCur }
  else if fin = 68 then
    { t with inCur := if word then wordLeft t.inLine t.inCur else t.inCur - 1 }
  else if fin = 72 then { t with inCur := 0 }
  else if fin = 70 then { t with inCur := t.inLine.length }
  else if fin = 126 then
    if kcsi.headD 0 = 53 then { t with scrollOff := t.scrollOff + 10 }
    else if kcsi.headD 0 = 54 then { t with scrollOff := max (t.scrollOff - 10) 0 }
    else t
  else t

/-- A key other than Enter and Esc. -/
def Term.control (t : Term) (c : UInt8) : Term :=
  if c = 0x7F ∨ c = 0x08 then t.deleteBefore
  else if c = 0x01 then { t with inCur := 0 }
  else if c = 0x05 then { t with inCur := t.inLine.length }
  else if c = 0x15 then { t.deleteRange 0 t.inCur with inCur := 0 }
  else if c = 0x0B then { t with inLine := t.inLine.take t.inCur }
  else if c = 0x17 then t.deleteRange (wordLeft t.inLine t.inCur) t.inCur
  else if 32 ≤ c ∧ c < 127 then t.insertChar c
  else t

/-- `submit`, but for the evaluation. -/
def Term.submit (t : Term) : Term :=
  { t with
    history := Term.histAdd t.history t.inLine
    histBrowse := none
    inLine := []
    inCur := 0
    scrollOff := 0 }

/-- `term_key`, with the line it submits. -/
def Term.key (t : Term) (c : UInt8) : Term × Option Line :=
  match t.kesc with
  | .esc =>
    let t := { t with kesc := .key }
    if c = 91 ∨ c = 79 then ({ t with kesc := .seq [] }, none)
    else if c = 98 then ({ t with inCur := wordLeft t.inLine t.inCur }, none)
    else if c = 102 then ({ t with inCur := wordRight t.inLine t.inCur }, none)
    else (t, none)
  | .seq kcsi =>
    if isFinal c then ({ t with kesc := .key }.keySeq kcsi c, none)
    else ({ t with kesc := .seq (if kcsi.length < 15 then kcsi ++ [c] else kcsi) }, none)
  | .key =>
    if c = 27 then ({ t with kesc := .esc }, none)
    else if c = 13 ∨ c = 10 then (t.submit, some t.inLine)
    else (t.control c, none)

/-- The first line that is submitted, and the history then. -/
def Term.read : Term → List UInt8 → Option (Line × History)
  | _, [] => none
  | t, c :: cs =>
    match t.key c with
    | (t, some line) => some (line, t.history)
    | (t, none) => t.read cs

end JuampiOs.LineEdit
