import JuampiOs.Lib.Cells
import JuampiOs.Lib.Raster
import Mathlib.Algebra.GroupWithZero.Nat

/-!
# The document of the editor

The line array of `editor.c` and the functions that reshape it: `buffer_from_text`,
`serialize_into`, `join_into`, `delete_line`, `insert_line_at` and the edits inside a line. A
`Row` is one element of `lines` with its element of `line_len`; the cells from the length on are
what earlier contents left there, except the terminating NUL.

`Document.text` is what the user sees, the lines up to their lengths. A valid document is what
the editor keeps: one to `ED_MAX_LINES` lines of at most `ED_MAX_COLS` characters, NUL behind
the last one, none a line feed or a carriage return. Of such a document the serialization is
read back as the same lines (`text_bufferFromText_serialize`).
-/

namespace JuampiOs.Edit

open Lib Function List

/-- `ED_MAX_LINES`. -/
def edMaxLines : Nat := 1024
/-- `ED_MAX_COLS`. -/
def edMaxCols : Nat := 256

/-- `'\n'`. -/
def lf : UInt8 := 10
/-- `'\r'`. -/
def cr : UInt8 := 13

/-- `lines[i]` and `line_len[i]`. -/
structure Row where
  cells : Nat → UInt8
  len : Nat

/-- `lines`, `line_len` and `nlines`. -/
structure Document where
  rows : Nat → Row
  nlines : Nat

abbrev Line := List UInt8
abbrev Text := List Line

/-- The characters of a line. -/
def Row.chars (r : Row) : Line := (range r.len).map r.cells

/-- The lines of the document. -/
def Document.text (d : Document) : Text := (range d.nlines).map fun i => (d.rows i).chars

/-- The arena's memory, zeroed. -/
def Document.zero : Document := ⟨fun _ => ⟨fun _ => 0, 0⟩, 0⟩

/-! ## Lines -/

namespace Row

/-- `line[j] = c`. -/
def set (r : Row) (j : Nat) (c : UInt8) : Row := { r with cells := update r.cells j c }

/-- `line[n] = '\0'` and `line_len = n`. -/
def cut (r : Row) (n : Nat) : Row := { (r.set n 0) with len := n }

/-- A line is copied with its NUL; the length is copied. -/
def copy (dst src : Row) : Row := ⟨Lib.copy dst.cells 0 (src.len + 1) src.cells, src.len⟩

/-- The characters `text`, from the start of the line, and a NUL. -/
def write (r : Row) (text : Line) : Row :=
  { r with cells := Lib.copy r.cells 0 text.length fun j => text.getD j 0 }.cut text.length

/-- Make room at `cx` for `ch`. -/
def insertAt (r : Row) (cx : Nat) (ch : UInt8) : Row :=
  ({ r with cells := moveUp (fun _ c => c) r.cells cx (r.len - cx) }.set cx ch).cut (r.len + 1)

/-- Close the gap at `cx`. -/
def eraseAt (r : Row) (cx : Nat) : Row :=
  { r with cells := moveDown (fun _ c => c) r.cells cx (cx + 1) (r.len - 1 - cx) }.cut (r.len - 1)

/-- The tail from `stop` on, with its NUL, goes to `cx`. -/
def eraseTo (r : Row) (cx stop : Nat) : Row :=
  ⟨moveDown (fun _ c => c) r.cells cx stop (r.len + 1 - stop), r.len - (stop - cx)⟩

/-- `vim_join`: the tail of `below` from `s` on, behind a space. -/
def joinWith (r below : Row) (s : Nat) : Row :=
  let spaced := 0 < r.len ∧ s < below.len ∧ r.len < edMaxCols
  let at₀ := if spaced then r.len + 1 else r.len
  let r := if spaced then r.set r.len 32 else r
  let n := min (below.len - s) (edMaxCols - at₀)
  { r with cells := Lib.copy r.cells at₀ n fun j => below.cells (s + j) }.cut (at₀ + n)

end Row

/-! ## The line array -/

namespace Document

def setRow (d : Document) (i : Nat) (r : Row) : Document :=
  { d with rows := update d.rows i r }

/-- One empty line. -/
def blank (d : Document) : Document := { d.setRow 0 ((d.rows 0).cut 0) with nlines := 1 }

/-- The loop of `buffer_from_text`, at the column `col` of line `nlines`. -/
def parse : List UInt8 → Document → Nat → Document × Nat
  | [], d, col => (d, col)
  | ch :: rest, d, col =>
    if d.nlines < edMaxLines then
      if ch = lf then
        let d := { d.setRow d.nlines ((d.rows d.nlines).cut col) with nlines := d.nlines + 1 }
        let d := if d.nlines < edMaxLines then d.setRow d.nlines ((d.rows d.nlines).set 0 0) else d
        parse rest d 0
      else if ch = cr then parse rest d col
      else if col < edMaxCols then
        parse rest (d.setRow d.nlines ((d.rows d.nlines).set col ch)) (col + 1)
      else parse rest d col
    else (d, col)

/-- `buffer_from_text`. -/
def bufferFromText (d : Document) (text : List UInt8) : Document :=
  let d := { d.setRow 0 { d.rows 0 with len := 0 } with nlines := 0 }
  let (d, col) := parse text d 0
  let d :=
    if (0 < col ∨ d.nlines = 0) ∧ d.nlines < edMaxLines then
      { d.setRow d.nlines ((d.rows d.nlines).cut col) with nlines := d.nlines + 1 }
    else d
  if d.nlines = 0 then d.blank else d

/-- `serialize_into`: nothing if it does not fit. -/
def serializeInto (d : Document) (cap : Nat) : List UInt8 :=
  let total := ((range d.nlines).map fun i => (d.rows i).len + 1).sum
  if cap < total then []
  else (range d.nlines).flatMap fun i => (d.rows i).chars ++ [lf]

/-- `join_into`. -/
def joinInto (d : Document) (dst src : Nat) : Document :=
  let r := d.rows dst
  let n := min (d.rows src).len (edMaxCols - r.len)
  d.setRow dst ({ r with cells := Lib.copy r.cells r.len n (d.rows src).cells }.cut (r.len + n))

/-- `delete_line`. -/
def deleteLine (d : Document) (row : Nat) : Document :=
  ⟨moveDown Row.copy d.rows row (row + 1) (d.nlines - 1 - row), d.nlines - 1⟩

/-- `insert_line_at`. -/
def insertLineAt (d : Document) (i : Nat) (text : Line) : Document :=
  if edMaxLines ≤ d.nlines then d
  else
    let rows := moveUp Row.copy d.rows i (d.nlines - i)
    ⟨update rows i ((rows i).write (text.take edMaxCols)), d.nlines + 1⟩

/-- `insert_newline`, without the cursor. -/
def splitLine (d : Document) (cy cx : Nat) : Document :=
  let rows := moveUp Row.copy d.rows (cy + 1) (d.nlines - (cy + 1))
  let tail := (rows cy).len - cx
  let below := { rows (cy + 1) with
    cells := Lib.copy (rows (cy + 1)).cells 0 tail fun j => (rows cy).cells (cx + j) }
  let rows := update rows (cy + 1) (below.cut tail)
  ⟨update rows cy ((rows cy).cut cx), d.nlines + 1⟩

end Document

/-! ## Valid documents -/

/-- A character that is in no way special to the format of a file. -/
def Plain (c : UInt8) : Prop := c ≠ lf ∧ c ≠ cr

structure Row.Ok (r : Row) : Prop where
  le : r.len ≤ edMaxCols
  nul : r.cells r.len = 0
  plain : ∀ j < r.len, Plain (r.cells j)

structure Document.Valid (d : Document) : Prop where
  pos : 0 < d.nlines
  le : d.nlines ≤ edMaxLines
  row : ∀ i < d.nlines, (d.rows i).Ok

variable {r src : Row} {d : Document} {cx cy i : Nat}

namespace Row

theorem cut_ok {n : Nat} (hn : n ≤ edMaxCols) (hplain : ∀ j < n, Plain (r.cells j)) :
    (r.cut n).Ok where
  le := hn
  nul := update_self n 0 r.cells
  plain := forall_update ⟨by decide, by decide⟩ fun j hj _ => hplain j hj

/-- Characters copied behind the first `off` of a line. -/
theorem append_ok {off n m : Nat} {from₀ : Nat → UInt8} (hm : m = off + n) (hle : m ≤ edMaxCols)
    (hkept : ∀ j < off, Plain (r.cells j)) (hnew : ∀ j < n, Plain (from₀ j)) :
    ({ r with cells := Lib.copy r.cells off n from₀ }.cut m).Ok := by
  apply cut_ok hle
  intro j hj
  show Plain (Lib.copy r.cells off n from₀ j)
  rw [Lib.copy]
  split
  · exact hnew _ (by omega)
  · exact hkept _ (by omega)

theorem cut_zero_ok (r : Row) : (r.cut 0).Ok :=
  cut_ok (Nat.zero_le _) fun j hj => absurd hj (Nat.not_lt_zero j)

theorem copy_cells {j : Nat} (hj : j ≤ src.len) : (r.copy src).cells j = src.cells j := by
  show Lib.copy _ _ _ _ j = _
  rw [Lib.copy, if_pos (by omega), Nat.sub_zero]

theorem Ok.copy (h : src.Ok) : (r.copy src).Ok where
  le := h.le
  nul := (copy_cells (Nat.le_refl _)).trans h.nul
  plain j hj := by
    have hj' : j < src.len := hj
    rw [copy_cells (Nat.le_of_lt hj')]
    exact h.plain j hj

theorem write_ok {text : Line} (hlen : text.length ≤ edMaxCols) (hplain : ∀ c ∈ text, Plain c) :
    (r.write text).Ok := by
  refine append_ok (by omega) hlen (fun j hj => absurd hj (Nat.not_lt_zero j)) fun j hj => ?_
  rw [getD_eq_getElem?_getD, getElem?_eq_getElem hj]
  exact hplain _ (getElem_mem hj)

theorem Ok.set {j : Nat} {c : UInt8} (h : r.Ok) (hj : j < r.len) (hc : Plain c) :
    (r.set j c).Ok where
  le := h.le
  nul := by
    show update r.cells j c r.len = 0
    rw [update_of_ne (ne_of_gt hj)]
    exact h.nul
  plain := forall_update hc fun k hk _ => h.plain k hk

theorem Ok.insertAt {ch : UInt8} (h : r.Ok) (hcx : cx ≤ r.len) (hroom : r.len < edMaxCols)
    (hch : Plain ch) : (r.insertAt cx ch).Ok := by
  apply cut_ok hroom
  refine forall_update hch fun j hj hjc => ?_
  dsimp only
  rw [moveUp_apply]
  split <;> exact h.plain _ (by omega)

theorem Ok.eraseAt (h : r.Ok) (cx : Nat) : (r.eraseAt cx).Ok := by
  have hle := h.le
  apply cut_ok (by omega)
  intro j hj
  show Plain (moveDown _ _ _ _ _ j)
  rw [moveDown_apply _ (by omega)]
  split <;> exact h.plain _ (by omega)

theorem Ok.eraseTo {stop : Nat} (h : r.Ok) (hcx : cx ≤ stop) (hstop : stop ≤ r.len) :
    (r.eraseTo cx stop).Ok := by
  have hle := h.le
  refine ⟨?_, ?_, ?_⟩
  · show r.len - (stop - cx) ≤ edMaxCols
    omega
  · show moveDown _ _ _ _ _ (r.len - (stop - cx)) = 0
    rw [moveDown_apply _ hcx, if_pos (by omega),
      show r.len - (stop - cx) - cx + stop = r.len by omega]
    exact h.nul
  · intro j hj
    have hj' : j < r.len - (stop - cx) := hj
    show Plain (moveDown _ _ _ _ _ j)
    rw [moveDown_apply _ hcx]
    split <;> exact h.plain _ (by omega)

theorem Ok.joinWith {below : Row} {s : Nat} (h : r.Ok) (hbelow : below.Ok) :
    (r.joinWith below s).Ok := by
  have hle := h.le
  unfold Row.joinWith
  dsimp only
  split
  · refine append_ok rfl (by omega) ?_ fun j hj => hbelow.plain _ (by omega)
    exact forall_update ⟨by decide, by decide⟩ fun j hj hne => h.plain j (by omega)
  · exact append_ok rfl (by omega) h.plain fun j hj => hbelow.plain _ (by omega)

end Row

namespace Document

theorem Valid.setRow (h : d.Valid) {r : Row} (hr : r.Ok) : (d.setRow i r).Valid where
  pos := h.pos
  le := h.le
  row := forall_update hr fun k hk _ => h.row k hk

theorem setRow_self (d : Document) (i : Nat) (r : Row) : (d.setRow i r).rows i = r :=
  update_self ..

theorem setRow_other {k : Nat} (h : k ≠ i) (r : Row) : (d.setRow i r).rows k = d.rows k :=
  update_of_ne h ..

theorem Valid.joinInto {dst src : Nat} (h : d.Valid) (hdst : dst < d.nlines)
    (hsrc : src < d.nlines) : (d.joinInto dst src).Valid := by
  have hto := h.row dst hdst
  have hfrom := h.row src hsrc
  have hle := hto.le
  apply h.setRow
  exact Row.append_ok rfl (by omega) hto.plain fun j hj => hfrom.plain j (by omega)

theorem Valid.deleteLine {row : Nat} (h : d.Valid) (hmore : 1 < d.nlines) :
    (d.deleteLine row).Valid := by
  have hle := h.le
  refine ⟨?_, ?_, ?_⟩
  · show 0 < d.nlines - 1
    omega
  · show d.nlines - 1 ≤ edMaxLines
    omega
  · intro k hk
    have hk' : k < d.nlines - 1 := hk
    show Row.Ok (moveDown Row.copy d.rows row (row + 1) (d.nlines - 1 - row) k)
    rw [moveDown_apply _ (by omega)]
    split
    · exact (h.row _ (by omega)).copy
    · exact h.row _ (by omega)

/-- The rows behind the one an insertion makes room for. -/
theorem Valid.moved (h : d.Valid) {i k n : Nat} (hk : k < d.nlines + 1) (hik : k ≠ i)
    (hn : i + n = d.nlines) : (moveUp Row.copy d.rows i n k).Ok := by
  rw [moveUp_apply]
  split
  · exact (h.row _ (by omega)).copy
  · exact h.row _ (by omega)

theorem Valid.insertLineAt {text : Line} (h : d.Valid) (hi : i ≤ d.nlines)
    (hplain : ∀ c ∈ text, Plain c) : (d.insertLineAt i text).Valid := by
  unfold Document.insertLineAt
  split
  · exact h
  rename_i hroom
  refine ⟨Nat.succ_pos _, by dsimp only; omega, forall_update ?_ ?_⟩
  · apply Row.write_ok
    · rw [length_take]
      exact min_le_left _ _
    · intro c hc
      exact hplain c (mem_of_mem_take hc)
  · intro k hk hki
    exact h.moved hk hki (by omega)

theorem Valid.splitLine (h : d.Valid) (hroom : d.nlines < edMaxLines) (hcy : cy < d.nlines)
    (hcx : cx ≤ (d.rows cy).len) : (d.splitLine cy cx).Valid := by
  have hrow := h.row cy hcy
  have hle := hrow.le
  -- the line of the cursor is not moved
  have hkept : moveUp Row.copy d.rows (cy + 1) (d.nlines - (cy + 1)) cy = d.rows cy := by
    rw [moveUp_apply, if_neg (by omega)]
  refine ⟨Nat.succ_pos _, by show d.nlines + 1 ≤ _; omega, ?_⟩
  unfold Document.splitLine
  dsimp only
  rw [update_of_ne (by omega), hkept]
  refine forall_update (Row.cut_ok (by omega) fun j hj => hrow.plain _ (by omega)) fun k hk _ => ?_
  refine forall_update ?_ (fun k hk hkn => h.moved hk hkn (by omega)) k hk
  exact Row.append_ok (by omega) (by omega) (fun j hj => absurd hj (Nat.not_lt_zero j))
    fun j hj => hrow.plain _ (by omega)

end Document

/-! ## Reading a file -/

/-- Between two characters: the lines before are closed, the one at hand has `col` characters. -/
structure Document.Partial (d : Document) (col : Nat) : Prop where
  le : d.nlines ≤ edMaxLines
  row : ∀ i < d.nlines, (d.rows i).Ok
  width : col ≤ edMaxCols
  plain : ∀ j < col, Plain ((d.rows d.nlines).cells j)

/-- The first characters of a line. -/
def Row.upTo (r : Row) (n : Nat) : Line := (range n).map r.cells

theorem Row.length_upTo (r : Row) (n : Nat) : (r.upTo n).length = n := by
  rw [Row.upTo, length_map, length_range]

theorem Row.upTo_update (r : Row) (n : Nat) (c : UInt8) {m : Nat} (hm : m ≤ n) :
    (r.set n c).upTo m = r.upTo m := by
  apply map_congr_left
  intro j hj
  exact update_of_ne (ne_of_lt (Nat.lt_of_lt_of_le (mem_range.mp hj) hm)) c r.cells

theorem Row.upTo_set (r : Row) (n : Nat) (c : UInt8) :
    (r.set n c).upTo (n + 1) = r.upTo n ++ [c] := by
  rw [Row.upTo, range_succ, map_append]
  show (r.set n c).upTo n ++ [update r.cells n c n] = _
  rw [r.upTo_update n c (Nat.le_refl n), update_self]

/-- One more character of a file, for the lines read so far and the one at hand. -/
def readChar (s : Text × Line) (ch : UInt8) : Text × Line :=
  if s.1.length < edMaxLines then
    if ch = lf then (s.1 ++ [s.2], [])
    else if ch = cr then s
    else if s.2.length < edMaxCols then (s.1, s.2 ++ [ch]) else s
  else s

theorem readChar_full {s : Text × Line} (h : edMaxLines ≤ s.1.length) (ch : UInt8) :
    readChar s ch = s :=
  if_neg (Nat.not_lt.mpr h)

theorem foldl_readChar_full {s : Text × Line} (h : edMaxLines ≤ s.1.length) (text : List UInt8) :
    text.foldl readChar s = s := by
  induction text with
  | nil => rfl
  | cons ch rest ih => rw [foldl_cons, readChar_full h, ih]

/-- The last line is closed unless the file ended exactly on a newline. -/
def closeText (s : Text × Line) : Text :=
  if (s.2 ≠ [] ∨ s.1 = []) ∧ s.1.length < edMaxLines then s.1 ++ [s.2] else s.1

namespace Document

/-- What has been read. -/
def sofar (d : Document) (col : Nat) : Text × Line :=
  (d.text, (d.rows d.nlines).upTo col)

@[simp] theorem length_text (d : Document) : d.text.length = d.nlines := by
  rw [text, length_map, length_range]

theorem text_congr {d' : Document} (hn : d'.nlines = d.nlines)
    (hrows : ∀ i < d.nlines, d'.rows i = d.rows i) : d'.text = d.text := by
  rw [text, hn]
  apply map_congr_left
  intro i hi
  rw [hrows i (mem_range.mp hi)]

/-- The line at hand is closed. -/
def close (d : Document) (col : Nat) : Document :=
  { d.setRow d.nlines ((d.rows d.nlines).cut col) with nlines := d.nlines + 1 }

variable {col : Nat}

theorem Partial.close (h : d.Partial col) :
    ∀ i < d.nlines + 1, ((d.close col).rows i).Ok :=
  forall_update (Row.cut_ok h.width h.plain) fun i hi hne => h.row i (by omega)

theorem text_close (d : Document) (col : Nat) :
    (d.close col).text = d.text ++ [(d.rows d.nlines).upTo col] := by
  rw [text, show (d.close col).nlines = d.nlines + 1 from rfl, range_succ, map_append]
  congr 1
  · apply map_congr_left
    intro i hi
    exact congrArg Row.chars (setRow_other (ne_of_lt (mem_range.mp hi)) _)
  · show [((d.close col).rows d.nlines).chars] = _
    rw [show (d.close col).rows d.nlines = _ from setRow_self _ _ _]
    exact congrArg (fun l => [l]) (Row.upTo_update _ _ _ (Nat.le_refl _))

/-- A line feed: the line behind the one that is closed is not part of the text. -/
theorem Partial.newline (h : d.Partial col) (hroom : d.nlines < edMaxLines)
    {d' : Document} (hn : d'.nlines = d.nlines + 1)
    (hrows : ∀ i < d.nlines + 1, d'.rows i = (d.close col).rows i) :
    d'.Partial 0 ∧ d'.sofar 0 = readChar (d.sofar col) lf := by
  refine ⟨⟨by omega, fun i hi => ?_, Nat.zero_le _, fun j hj => absurd hj (Nat.not_lt_zero j)⟩,
    ?_⟩
  · rw [hrows i (by omega)]
    exact h.close i (by omega)
  · rw [readChar, if_pos (d.length_text ▸ hroom), if_pos rfl, sofar,
      text_congr (d := d.close col) hn hrows, text_close]
    rfl

theorem Partial.char (h : d.Partial col) {ch : UInt8} (hch : Plain ch)
    (hcol : col < edMaxCols) :
    (d.setRow d.nlines ((d.rows d.nlines).set col ch)).Partial (col + 1) ∧
      (d.setRow d.nlines ((d.rows d.nlines).set col ch)).sofar (col + 1) =
        (d.text, (d.rows d.nlines).upTo col ++ [ch]) := by
  have hrow := d.setRow_self d.nlines ((d.rows d.nlines).set col ch)
  have hkept : ∀ r, ∀ i < d.nlines, (d.setRow d.nlines r).rows i = d.rows i :=
    fun r i hi => setRow_other (ne_of_lt hi) r
  refine ⟨⟨h.le, ?_, hcol, ?_⟩, Prod.ext ?_ ?_⟩
  · intro i hi
    rw [hkept _ i hi]
    exact h.row i hi
  · show ∀ j < col + 1, Plain (((d.setRow d.nlines _).rows d.nlines).cells j)
    rw [hrow]
    exact forall_update hch fun j hj hne => h.plain j (by omega)
  · exact text_congr rfl (hkept _)
  · exact (congrArg (Row.upTo · (col + 1)) hrow).trans (Row.upTo_set _ _ _)

theorem parse_sofar (text : List UInt8) {d : Document} (h : d.Partial col) :
    (parse text d col).1.Partial (parse text d col).2 ∧
      (parse text d col).1.sofar (parse text d col).2 =
        text.foldl readChar (d.sofar col) := by
  induction text generalizing d col with
  | nil => exact ⟨h, rfl⟩
  | cons ch rest ih =>
    have hlen : (d.sofar col).1.length = d.nlines := d.length_text
    have hwidth : (d.sofar col).2.length = col := (d.rows d.nlines).length_upTo col
    rw [parse, foldl_cons]
    by_cases hroom : d.nlines < edMaxLines
    · have hroom' : (d.sofar col).1.length < edMaxLines := hlen ▸ hroom
      rw [if_pos hroom]
      by_cases hlf : ch = lf
      · rw [if_pos hlf, hlf]
        dsimp only
        split
        · obtain ⟨hnext, hsofar⟩ :=
            h.newline hroom rfl fun i hi => setRow_other (ne_of_lt hi) _
          rw [← hsofar]
          exact ih hnext
        · obtain ⟨hnext, hsofar⟩ := h.newline hroom rfl fun _ _ => rfl
          rw [← hsofar]
          exact ih hnext
      · rw [if_neg hlf, readChar, if_pos hroom', if_neg hlf]
        by_cases hcr : ch = cr
        · rw [if_pos hcr, if_pos hcr]
          exact ih h
        rw [if_neg hcr, if_neg hcr, hwidth]
        by_cases hcol : col < edMaxCols
        · obtain ⟨hnext, hsofar⟩ := h.char ⟨hlf, hcr⟩ hcol
          rw [if_pos hcol, if_pos hcol]
          exact hsofar ▸ ih hnext
        · rw [if_neg hcol, if_neg hcol]
          exact ih h
    · rw [if_neg hroom]
      have hfull := Nat.le_of_not_lt (hlen ▸ hroom)
      rw [readChar_full hfull, foldl_readChar_full hfull]
      exact ⟨h, rfl⟩

theorem blank_valid (d : Document) : d.blank.Valid where
  pos := Nat.one_pos
  le := by show 1 ≤ edMaxLines; decide
  row := forall_update (Row.cut_zero_ok _) fun i hi hne => absurd (Nat.lt_one_iff.mp hi) hne

/-- `bufferFromText` leaves a valid document with the lines read, whatever the array held. -/
theorem bufferFromText_spec (d : Document) (text : List UInt8) :
    (d.bufferFromText text).Valid ∧
      (d.bufferFromText text).text = closeText (text.foldl readChar ([], [])) := by
  have hstart : Partial { d.setRow 0 { d.rows 0 with len := 0 } with nlines := 0 } 0 :=
    ⟨Nat.zero_le _, fun i hi => absurd hi (Nat.not_lt_zero i), Nat.zero_le _,
      fun j hj => absurd hj (Nat.not_lt_zero j)⟩
  obtain ⟨hend, htext⟩ := parse_sofar text hstart
  rw [show ([], []) = sofar { d.setRow 0 { d.rows 0 with len := 0 } with nlines := 0 } 0
    from rfl, ← htext]
  unfold bufferFromText
  dsimp only
  generalize parse text _ 0 = out at hend ⊢
  obtain ⟨d', col⟩ := out
  dsimp only at hend ⊢
  have hopen : (d'.sofar col).2 ≠ [] ∨ (d'.sofar col).1 = [] ↔ 0 < col ∨ d'.nlines = 0 := by
    rw [← length_pos_iff, ← length_eq_zero_iff]
    simp [sofar, Row.upTo]
  have hlen : (d'.sofar col).1.length = d'.nlines := d'.length_text
  simp only [closeText, hopen, hlen]
  by_cases hlast : (0 < col ∨ d'.nlines = 0) ∧ d'.nlines < edMaxLines
  · rw [if_pos hlast, if_neg (Nat.succ_ne_zero _), if_pos hlast]
    exact ⟨⟨Nat.succ_pos _, hlast.2, hend.close⟩, d'.text_close col⟩
  · have hsome : d'.nlines ≠ 0 := fun hz => hlast ⟨.inr hz, by rw [hz]; decide⟩
    rw [if_neg hlast, if_neg hsome, if_neg hlast]
    exact ⟨⟨Nat.pos_of_ne_zero hsome, hend.le, hend.row⟩, rfl⟩

end Document

/-! ## Writing and reading back -/

/-- The contents of a file with the lines `t`. -/
def serialize (t : Text) : List UInt8 := t.flatMap fun l => l ++ [lf]

/-- The lines of a valid document. -/
structure TextOk (t : Text) : Prop where
  ne : t ≠ []
  le : t.length ≤ edMaxLines
  line : ∀ l ∈ t, l.length ≤ edMaxCols ∧ ∀ c ∈ l, Plain c

@[simp] theorem Row.length_chars (r : Row) : r.chars.length = r.len :=
  r.length_upTo r.len

theorem Row.Ok.chars (h : r.Ok) : r.chars.length ≤ edMaxCols ∧ ∀ c ∈ r.chars, Plain c := by
  refine ⟨by rw [Row.length_chars]; exact h.le, ?_⟩
  intro c hc
  obtain ⟨j, hj, rfl⟩ := mem_map.mp hc
  exact h.plain j (mem_range.mp hj)

theorem Document.Valid.text (h : d.Valid) : TextOk d.text where
  ne hnil := by
    have := d.length_text
    rw [hnil] at this
    exact absurd this (ne_of_lt h.pos)
  le := by
    rw [Document.length_text]
    exact h.le
  line l hl := by
    obtain ⟨i, hi, rfl⟩ := mem_map.mp hl
    exact (h.row i (mem_range.mp hi)).chars

theorem length_serialize (d : Document) :
    (serialize d.text).length = ((range d.nlines).map fun i => (d.rows i).len + 1).sum := by
  rw [serialize, length_flatMap, Document.text, map_map]
  congr 1
  apply map_congr_left
  intro i _
  simp

theorem Document.serializeInto_eq (d : Document) (cap : Nat) :
    d.serializeInto cap = if cap < (serialize d.text).length then [] else serialize d.text := by
  rw [length_serialize]
  unfold Document.serializeInto
  dsimp only
  congr 1
  rw [serialize, Document.text, flatMap_map]

theorem Document.Valid.serialize_ne (h : d.Valid) : serialize d.text ≠ [] := by
  obtain ⟨l, t, heq⟩ := exists_cons_of_ne_nil h.text.ne
  rw [heq, serialize, flatMap_cons]
  simp

theorem foldl_line {l m : Line} {t : Text} (hplain : ∀ c ∈ l, Plain c)
    (hroom : t.length < edMaxLines) (hlen : m.length + l.length ≤ edMaxCols) :
    l.foldl readChar (t, m) = (t, m ++ l) := by
  induction l generalizing m with
  | nil => rw [append_nil]; rfl
  | cons c l ih =>
    have hc := hplain c mem_cons_self
    rw [length_cons] at hlen
    rw [foldl_cons, readChar, if_pos hroom, if_neg hc.1, if_neg hc.2, if_pos (by dsimp only; omega),
      ih (fun x hx => hplain x (mem_cons_of_mem _ hx)) (by rw [length_append]; simp; omega),
      append_assoc, singleton_append]

theorem foldl_serialize {t s : Text} (hline : ∀ l ∈ t, l.length ≤ edMaxCols ∧ ∀ c ∈ l, Plain c)
    (hroom : s.length + t.length ≤ edMaxLines) :
    (serialize t).foldl readChar (s, []) = (s ++ t, []) := by
  induction t generalizing s with
  | nil => rw [append_nil]; rfl
  | cons l t ih =>
    obtain ⟨hlen, hplain⟩ := hline l mem_cons_self
    rw [length_cons] at hroom
    rw [serialize, flatMap_cons, foldl_append, foldl_append,
      foldl_line hplain (by omega) (by simpa using hlen), nil_append, foldl_cons, foldl_nil,
      readChar, if_pos (by dsimp only; omega), if_pos rfl]
    refine (ih (fun x hx => hline x (mem_cons_of_mem _ hx)) (by simp; omega)).trans ?_
    rw [append_assoc, singleton_append]

/-- **What is written is read back**, into whatever the line array held. -/
theorem text_bufferFromText_serialize (d : Document) {t : Text} (h : TextOk t) :
    (d.bufferFromText (serialize t)).text = t := by
  rw [(d.bufferFromText_spec _).2, foldl_serialize h.line (by simpa using h.le), nil_append,
    closeText, if_neg (by simp [h.ne])]

end JuampiOs.Edit
